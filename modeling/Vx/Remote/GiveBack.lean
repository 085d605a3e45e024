import Vx.Remote.PlanSpec
import Vx.Remote.Unpack

namespace Vx.Remote

open List Option
open Function (update update_of_ne update_self)
open Lib.Grouping
open Lib.Strided

section

structure Memref extends Desc where
  allocated : ℕ
deriving DecidableEq

structure Kept where
  allocated : ℕ
  aligned : ℕ
  offset : ℤ
deriving DecidableEq

structure Pointed where
  heap : ℕ → Memref
  kept : ℕ → Kept

-- The descriptor of the view number `i` is at `own i`, and the copy of the span number `s` starts at `copy s`.
variable (vs : List View) (st : SpanState) (own copy : ℕ → ℕ)

def dimsOf (i : ℕ) : List (ℤ × ℤ) := ((vs[i]?).map fun v => v.desc.dims).getD []

def home (i : ℕ) : ℕ := copy (st.views i).span.toNat + (st.views i).place

def pointAtStep (s : Pointed) (i : ℕ) : Pointed :=
  if (st.views i).span < 0 then s
  else
    let d := s.heap (own i)
    { heap := update s.heap (own i)
        { allocated := home st copy i
          aligned := home st copy i
          offset := 0
          dims := if (st.views i).packed then d.dims.mapIdx fun k dim => (dim.1, denseStride (dimsOf vs i) k) else d.dims }
      kept := update s.kept i ⟨d.allocated, d.aligned, d.offset⟩ }

def viewCopyPointAt (heap : ℕ → Memref) : Pointed :=
  (List.range vs.length).foldl (pointAtStep vs st own copy) ⟨heap, fun _ => ⟨0, 0, 0⟩⟩

def restoreDesc (kept : ℕ → Kept) (i : ℕ) (heap : ℕ → Memref) (p : ℕ) : Option (ℕ → Memref) :=
  let d := heap p
  let back := { d with allocated := (kept i).allocated, aligned := (kept i).aligned }
  if d.aligned ≠ home st copy i then some heap
  else if !(st.views i).packed then some (update heap p { back with offset := addI64 d.offset (kept i).offset })
  else if p = own i ∧ d.offset = 0 then
    some (update heap p { back with
      offset := (kept i).offset
      dims := d.dims.mapIdx fun r dim => (dim.1, ((dimsOf vs i).getD r (0, dim.2)).2) })
  else
    match viewCopyUnpack ⟨(kept i).aligned, (kept i).offset, dimsOf vs i⟩ d.toDesc with
    | none => none
    | some unpacked => some (update heap p { back with offset := unpacked.offset, dims := unpacked.dims })

def restoreView (kept : ℕ → Kept) (descs : List (Option ℕ)) (heap : ℕ → Memref) (i : ℕ) : Option (ℕ → Memref) :=
  if (st.views i).span < 0 then some heap
  else descs.foldlM (fun heap p => p.elim (some heap) (restoreDesc vs st own copy kept i heap)) heap

def viewCopyRestore (kept : ℕ → Kept) (descs : List (Option ℕ)) (heap : ℕ → Memref) : Option (ℕ → Memref) :=
  (List.range vs.length).foldlM (restoreView vs st own copy kept descs) heap

end

def Desc.address (d : Desc) (elem : Dtype) (index : List ℕ) : ℕ :=
  ((d.aligned + d.element index * elem.bytes) % addressSpace).toNat

structure SameElements (elem : Dtype) (d d' : Desc) : Prop where
  sizes : d'.dims.map Prod.fst = d.dims.map Prod.fst
  address : ∀ index, d.InRange index → d'.address elem index = d.address elem index

structure Setting (vs : List View) (st : SpanState) (own copy : ℕ → ℕ) (descs : List (Option ℕ)) (heap : ℕ → Memref) :
    Prop where
  desc : ∀ i v, vs[i]? = some v → (heap (own i)).toDesc = v.desc
  one : ∀ i < vs.length, ∀ j < vs.length, own i = own j → vs[i]? = vs[j]?
  listed : ∀ i < vs.length, some (own i) ∈ descs
  apart : ∀ s < st.num, ∀ t < st.num, ∀ x, Holds (copy s, (st.spans s).bytes) x → Holds (copy t, (st.spans t).bytes) x →
    s = t
  fresh : ∀ p, some p ∈ descs → ∀ s < st.num, ¬ Holds (copy s, (st.spans s).bytes) (heap p).aligned

def GivesBack (vs : List View) (st : SpanState) (own copy : ℕ → ℕ) (descs : List (Option ℕ)) (heap : ℕ → Memref) : Prop :=
  let pointed := viewCopyPointAt vs st own copy heap
  ∃ heap', viewCopyRestore vs st own copy pointed.kept descs pointed.heap = some heap' ∧
    ∀ i v, vs[i]? = some v → SameElements v.elem (heap (own i)).toDesc (heap' (own i)).toDesc

def StartsAgree (vs : List View) : Prop :=
  ∀ (i : ℕ) (v : View) (a : Interval), vs[i]? = some v → v.extent = some a → (∀ k < i, ∀ c, extents vs k = some c → c.1 ≠ a.1) →
    ∀ (j : ℕ) (w : View) (b : Interval), vs[j]? = some w → w.extent = some b → a.1 = b.1 → v.desc.offset = 0 ∨ v.elem.bytes = w.elem.bytes

section
variable {vs : List View} {st : SpanState} {own copy : ℕ → ℕ} {descs : List (Option ℕ)} {heap : ℕ → Memref}

structure Homed (vs : List View) (st : SpanState) (own copy : ℕ → ℕ) (descs : List (Option ℕ)) (heap : ℕ → Memref) :
    Prop extends Setting vs st own copy descs heap where
  spanned : ∀ i, 0 ≤ (st.views i).span ↔ ∃ a, extents vs i = some a
  same : ∀ i j a b, extents vs i = some a → extents vs j = some b → (home st copy i = home st copy j ↔ a.1 = b.1)
  alone : ∀ i j, 0 ≤ (st.views i).span → 0 ≤ (st.views j).span → (st.views i).packed = true →
    home st copy i = home st copy j → i = j
  away : ∀ i, 0 ≤ (st.views i).span → ∀ p, some p ∈ descs → (heap p).aligned ≠ home st copy i

theorem lt_of_extents {i : ℕ} {a : Interval} (h : extents vs i = some a) : i < vs.length := by
  by_contra hle
  rw [extents_beyond vs (Nat.not_lt.mp hle)] at h
  cases h

namespace Homed

variable (h : Homed vs st own copy descs heap)
include h
variable {i : ℕ}

theorem lt (hi : 0 ≤ (st.views i).span) : i < vs.length := by
  obtain ⟨a, ha⟩ := (h.spanned i).mp hi
  exact lt_of_extents ha

theorem home_eq {j : ℕ} (hi : 0 ≤ (st.views i).span) (hj : 0 ≤ (st.views j).span) (hown : own i = own j) :
    home st copy i = home st copy j := by
  obtain ⟨a, ha⟩ := (h.spanned i).mp hi
  obtain ⟨b, hb⟩ := (h.spanned j).mp hj
  rw [h.same i j a b ha hb]
  have hview := h.one i (h.lt hi) j (h.lt hj) hown
  rw [extents, hview] at ha
  rw [extents, ha] at hb
  cases hb
  rfl

theorem dimsOf_eq (hi : i < vs.length) : dimsOf vs i = (heap (own i)).dims := by
  have hv : vs[i]? = some vs[i] := List.getElem?_eq_getElem hi
  rw [h.desc i vs[i] hv, dimsOf, hv]
  rfl

end Homed

def pointedAt (st : SpanState) (own copy : ℕ → ℕ) (heap : ℕ → Memref) (i : ℕ) : Memref :=
  { allocated := home st copy i
    aligned := home st copy i
    offset := 0
    dims := if (st.views i).packed then denseDims (heap (own i)).dims else (heap (own i)).dims }

structure PointedTo (st : SpanState) (own copy : ℕ → ℕ) (heap : ℕ → Memref) (m : ℕ) (s : Pointed) : Prop where
  untouched : ∀ p, (∀ i < m, 0 ≤ (st.views i).span → own i ≠ p) → s.heap p = heap p
  pointed : ∀ i < m, 0 ≤ (st.views i).span → s.heap (own i) = pointedAt st own copy heap i
  kept : ∀ i < m, 0 ≤ (st.views i).span → (∀ j < i, 0 ≤ (st.views j).span → own j ≠ own i) →
    s.kept i = ⟨(heap (own i)).allocated, (heap (own i)).aligned, (heap (own i)).offset⟩

variable {m : ℕ} (h : Homed vs st own copy descs heap)
include h

theorem pointAtStep_pointed {s : Pointed}
    (hs : PointedTo st own copy heap m s) : PointedTo st own copy heap (m + 1) (pointAtStep vs st own copy s m) := by
  unfold pointAtStep
  split
  next hempty =>
    refine ⟨fun p hp => hs.untouched p fun i hi => hp i (by omega), fun i hi hspan => ?_, fun i hi hspan => ?_⟩
    · obtain hi | rfl : i < m ∨ i = m := by omega
      · exact hs.pointed i hi hspan
      · omega
    · obtain hi | rfl : i < m ∨ i = m := by omega
      · exact hs.kept i hi hspan
      · omega
  next hspan =>
    have hm := Int.not_lt.mp hspan
    -- A view with a dense copy shares its descriptor with no other view.
    have hshared : ∀ i < m, 0 ≤ (st.views i).span → own i = own m →
        pointedAt st own copy heap i = pointedAt st own copy heap m ∧ (st.views m).packed = false := by
      intro i hi hspan hown
      have hhome := h.home_eq hspan hm hown
      have hfirst : (st.views i).packed = false := by
        rw [← Bool.not_eq_true]
        intro hpacked
        have := h.alone i m hspan hm hpacked hhome
        omega
      have hsecond : (st.views m).packed = false := by
        rw [← Bool.not_eq_true]
        intro hpacked
        have := h.alone m i hm hspan hpacked hhome.symm
        omega
      exact ⟨by simp only [pointedAt, hhome, hfirst, hsecond, hown], hsecond⟩
    have hdims : (if (st.views m).packed then
          (s.heap (own m)).dims.mapIdx fun k dim => (dim.1, denseStride (dimsOf vs m) k) else (s.heap (own m)).dims) =
        if (st.views m).packed then denseDims (heap (own m)).dims else (heap (own m)).dims := by
      by_cases hnew : ∀ i < m, 0 ≤ (st.views i).span → own i ≠ own m
      · rw [hs.untouched (own m) hnew, h.dimsOf_eq (h.lt hm)]
        rfl
      push Not at hnew
      obtain ⟨i, hi, hspan, hown⟩ := hnew
      obtain ⟨hpointed, hpacked⟩ := hshared i hi hspan hown
      rw [← hown, hs.pointed i hi hspan, hpointed, hown]
      simp [pointedAt, hpacked]
    refine ⟨fun p hp => ?_, fun i hi hspan => ?_, fun i hi hspan hnew => ?_⟩
    · dsimp only
      rw [update_of_ne (hp m (by omega) hm).symm]
      exact hs.untouched p fun i hi => hp i (by omega)
    · by_cases hown : own i = own m
      · rw [hown]
        simp only [update_self, hdims]
        obtain hi | rfl : i < m ∨ i = m := by omega
        · exact (hshared i hi hspan hown).1.symm
        · rfl
      · have hne : i ≠ m := fun heq => hown (by rw [heq])
        dsimp only
        rw [update_of_ne hown]
        exact hs.pointed i (by omega) hspan
    · obtain hi | rfl : i < m ∨ i = m := by omega
      · dsimp only
        rw [update_of_ne hi.ne]
        exact hs.kept i hi hspan hnew
      · simp only [update_self, hs.untouched (own i) hnew]

theorem viewCopyPointAt_pointed : PointedTo st own copy heap vs.length (viewCopyPointAt vs st own copy heap) := by
  suffices hrun : ∀ m, PointedTo st own copy heap m
      ((List.range m).foldl (pointAtStep vs st own copy) ⟨heap, fun _ => ⟨0, 0, 0⟩⟩) from hrun vs.length
  intro m
  induction m with
  | zero => exact ⟨fun _ _ => rfl, fun _ hi => absurd hi (Nat.not_lt_zero _), fun _ hi => absurd hi (Nat.not_lt_zero _)⟩
  | succ m ih =>
    rw [range_succ, foldl_append]
    exact pointAtStep_pointed h ih

variable {kept : ℕ → Kept} {now : ℕ → Memref}

omit h in
theorem foldlM_restore {i : ℕ} (given : ℕ → Memref)
    (hgiven : ∀ p, some p ∈ descs → (now p).aligned = home st copy i → (given p).aligned ≠ home st copy i ∧
      ∀ heap, heap p = now p → restoreDesc vs st own copy kept i heap p = some (update heap p (given p))) :
    descs.foldlM (fun heap p => p.elim (some heap) (restoreDesc vs st own copy kept i heap)) now =
      some fun p => if some p ∈ descs ∧ (now p).aligned = home st copy i then given p else now p := by
  suffices hrun : ∀ (l done : List (Option ℕ)), (∀ p ∈ l, p ∈ descs) →
      l.foldlM (fun heap p => p.elim (some heap) (restoreDesc vs st own copy kept i heap))
        (fun p => if some p ∈ done ∧ (now p).aligned = home st copy i then given p else now p) =
      some fun p => if some p ∈ done ++ l ∧ (now p).aligned = home st copy i then given p else now p by
    simpa using hrun descs [] fun _ hp => hp
  intro l
  induction l with
  | nil => simp
  | cons p l ih =>
    intro done hl
    have hrest := ih (done ++ [p]) fun q hq => hl q (mem_cons_of_mem _ hq)
    rw [append_assoc, singleton_append] at hrest
    rw [foldlM_cons, ← hrest]
    cases p with
    | none => simp
    | some p =>
      simp only [elim_some]
      by_cases hhome : (now p).aligned = home st copy i
      · obtain ⟨haway, hstep⟩ := hgiven p (hl _ mem_cons_self) hhome
        by_cases hdone : some p ∈ done
        · have hskip : ∀ q, some q ∈ done ++ [some p] ↔ some q ∈ done := by
            intro q
            simp only [mem_append, List.mem_singleton, Option.some.injEq, or_iff_left_iff_imp]
            rintro rfl
            exact hdone
          simp only [hskip]
          rw [restoreDesc]
          simp [hdone, hhome, haway]
        · rw [hstep _ (by simp [hdone])]
          simp only [bind_eq_bind, bind_some]
          congr 1
          funext q
          by_cases hq : q = p
          · subst hq
            simp [hhome]
          · simp [hq]
      · have hskip : ∀ q, (some q ∈ done ++ [some p] ∧ (now q).aligned = home st copy i) ↔
            some q ∈ done ∧ (now q).aligned = home st copy i := by
          intro q
          simp only [mem_append, List.mem_singleton, Option.some.injEq]
          constructor
          · rintro ⟨hq | rfl, hq'⟩
            · exact ⟨hq, hq'⟩
            · exact absurd hq' hhome
          · exact fun hq => ⟨.inl hq.1, hq.2⟩
        simp only [hskip]
        rw [restoreDesc]
        simp [hhome]

def givenBack (st : SpanState) (own : ℕ → ℕ) (heap : ℕ → Memref) (i p : ℕ) : Memref :=
  if (st.views i).packed then heap (own i)
  else
    { allocated := (heap (own i)).allocated
      aligned := (heap (own i)).aligned
      offset := addI64 0 (heap (own i)).offset
      dims := (heap p).dims }

structure RestoredTo (st : SpanState) (own copy : ℕ → ℕ) (heap : ℕ → Memref) (m : ℕ) (now : ℕ → Memref) : Prop where
  untouched : ∀ p, (∀ i, 0 ≤ (st.views i).span → own i ≠ p) → now p = heap p
  waiting : ∀ j, 0 ≤ (st.views j).span → (∀ i < m, 0 ≤ (st.views i).span → home st copy i ≠ home st copy j) →
    now (own j) = pointedAt st own copy heap j
  back : ∀ j, 0 ≤ (st.views j).span → ∀ i < m, 0 ≤ (st.views i).span → home st copy i = home st copy j →
    (∀ k < i, 0 ≤ (st.views k).span → home st copy k ≠ home st copy i) → now (own j) = givenBack st own heap i (own j)

theorem PointedTo.restoredTo {s : Pointed}
    (hs : PointedTo st own copy heap vs.length s) : RestoredTo st own copy heap 0 s.heap where
  untouched p hp := hs.untouched p fun i _ => hp i
  waiting j hj _ := hs.pointed j (h.lt hj) hj
  back _ _ _ hi := absurd hi (Nat.not_lt_zero _)

theorem restoreDesc_own (hm : 0 ≤ (st.views m).span)
    (hkept : kept m = ⟨(heap (own m)).allocated, (heap (own m)).aligned, (heap (own m)).offset⟩) {j : ℕ}
    (hj : 0 ≤ (st.views j).span) (hhome : home st copy m = home st copy j)
    (hnow : now (own j) = pointedAt st own copy heap j) :
    restoreDesc vs st own copy kept m now (own j) = some (update now (own j) (givenBack st own heap m (own j))) := by
  unfold restoreDesc
  simp only [hnow, hkept]
  rw [if_neg (by simp [pointedAt, hhome])]
  cases hpacked : (st.views m).packed with
  | false =>
    have hdense : (st.views j).packed = false := by
      rw [← Bool.not_eq_true]
      intro htrue
      have := h.alone j m hj hm htrue hhome.symm
      rw [this, hpacked] at htrue
      cases htrue
    simp [pointedAt, givenBack, hpacked, hdense]
  | true =>
    obtain rfl := h.alone m j hm hj hpacked hhome
    have hdims : ((denseDims (heap (own m)).dims).mapIdx fun r dim =>
        (dim.1, ((dimsOf vs m).getD r (0, dim.2)).2)) = (heap (own m)).dims := by
      rw [h.dimsOf_eq (h.lt hm)]
      refine ext_getElem (by simp [denseDims]) fun r hr hr' => ?_
      simp [denseDims, List.getElem?_eq_getElem hr']
    simp only [pointedAt, givenBack, hpacked, Bool.not_true, Bool.false_eq_true, if_false, if_true, and_self, hdims]

omit h

theorem givenBack_aligned (st : SpanState) (own : ℕ → ℕ) (heap : ℕ → Memref) (i p : ℕ) :
    (givenBack st own heap i p).aligned = (heap (own i)).aligned := by
  unfold givenBack
  split <;> rfl

theorem exists_first {P : ℕ → Prop} (h : ¬ ∀ i < m, ¬ P i) : ∃ i < m, P i ∧ ∀ k < i, ¬ P k := by
  classical
  push Not at h
  obtain ⟨i, hi, hP⟩ := h
  refine ⟨Nat.find ⟨i, hP⟩, (Nat.find_min' ⟨i, hP⟩ hP).trans_lt hi, Nat.find_spec ⟨i, hP⟩, fun k hk => Nat.find_min _ hk⟩

theorem restoreView_restored (h : Homed vs st own copy descs heap)
    (hkept : ∀ i, 0 ≤ (st.views i).span → (∀ k < i, 0 ≤ (st.views k).span → own k ≠ own i) →
      kept i = ⟨(heap (own i)).allocated, (heap (own i)).aligned, (heap (own i)).offset⟩)
    (hnow : RestoredTo st own copy heap m now) :
    ∃ now', restoreView vs st own copy kept descs now m = some now' ∧ RestoredTo st own copy heap (m + 1) now' := by
  unfold restoreView
  split
  next hempty =>
    refine ⟨now, rfl, hnow.untouched, fun j hj hwait => hnow.waiting j hj fun i hi => hwait i (by omega),
      fun j hj i hi hspan => ?_⟩
    obtain hi | rfl : i < m ∨ i = m := by omega
    · exact hnow.back j hj i hi hspan
    · omega
  next hspan =>
    have hm := Int.not_lt.mp hspan
    -- A descriptor that points at the copy of this view is that of a view with its start that still waits.
    have hwaits : ∀ p, some p ∈ descs → (now p).aligned = home st copy m → ∃ j, own j = p ∧ 0 ≤ (st.views j).span ∧
        home st copy m = home st copy j ∧ ∀ i < m, 0 ≤ (st.views i).span → home st copy i ≠ home st copy j := by
      intro p hp hhome
      by_cases hview : ∀ i, 0 ≤ (st.views i).span → own i ≠ p
      · rw [hnow.untouched p hview] at hhome
        exact absurd hhome (h.away m hm p hp)
      push Not at hview
      obtain ⟨j, hj, rfl⟩ := hview
      by_cases hwait : ∀ i < m, ¬ (0 ≤ (st.views i).span ∧ home st copy i = home st copy j)
      · have hwait : ∀ i < m, 0 ≤ (st.views i).span → home st copy i ≠ home st copy j :=
          fun i hi hspan heq => hwait i hi ⟨hspan, heq⟩
        rw [hnow.waiting j hj hwait] at hhome
        exact ⟨j, rfl, hj, hhome.symm, hwait⟩
      · obtain ⟨i, hi, ⟨hspan, hsame⟩, hfirst⟩ := exists_first hwait
        rw [hnow.back j hj i hi hspan hsame fun k hk hspan heq => hfirst k hk ⟨hspan, heq.trans hsame⟩,
          givenBack_aligned] at hhome
        exact absurd hhome (h.away m hm _ (h.listed i (h.lt hspan)))
    have haway : ∀ i p, 0 ≤ (st.views i).span → (givenBack st own heap i p).aligned ≠ home st copy m := by
      intro i p hspan
      rw [givenBack_aligned]
      exact h.away m hm _ (h.listed i (h.lt hspan))
    refine ⟨_, foldlM_restore (givenBack st own heap m) fun p hp hhome => ⟨haway m p hm, fun heap' hheap => ?_⟩, ?_⟩
    · obtain ⟨j, rfl, hj, hsame, hwait⟩ := hwaits p hp hhome
      refine restoreDesc_own h hm (hkept m hm fun k hk hspan hown => ?_) hj hsame (hheap.trans (hnow.waiting j hj hwait))
      exact hwait k hk hspan ((h.home_eq hspan hm hown).trans hsame)
    · refine ⟨fun p hp => ?_, fun j hj hwait => ?_, fun j hj i hi hspan hsame hfirst => ?_⟩
      · rw [if_neg fun hpoints => ?_, hnow.untouched p hp]
        obtain ⟨j, hown, hj, -⟩ := hwaits p hpoints.1 hpoints.2
        exact hp j hj hown
      · have hold := hnow.waiting j hj fun i hi => hwait i (by omega)
        rw [if_neg fun hpoints => hwait m (by omega) hm ?_, hold]
        rw [hold] at hpoints
        exact hpoints.2.symm
      · obtain hi | rfl : i < m ∨ i = m := by omega
        · have hold := hnow.back j hj i hi hspan hsame hfirst
          rw [if_neg fun hpoints => haway i (own j) hspan ?_, hold]
          rw [hold] at hpoints
          exact hpoints.2
        · have hold := hnow.waiting j hj fun k hk hspan heq => hfirst k hk hspan (heq.trans hsame.symm)
          rw [if_pos ⟨h.listed j (h.lt hj), by rw [hold, hsame]; rfl⟩]

theorem viewCopyRestore_restored (h : Homed vs st own copy descs heap) :
    ∃ heap', viewCopyRestore vs st own copy (viewCopyPointAt vs st own copy heap).kept descs
        (viewCopyPointAt vs st own copy heap).heap = some heap' ∧ RestoredTo st own copy heap vs.length heap' := by
  have hpointed := viewCopyPointAt_pointed h
  suffices hrun : ∀ m, ∃ heap', (List.range m).foldlM
      (restoreView vs st own copy (viewCopyPointAt vs st own copy heap).kept descs)
      (viewCopyPointAt vs st own copy heap).heap = some heap' ∧ RestoredTo st own copy heap m heap' from hrun vs.length
  intro m
  induction m with
  | zero => exact ⟨_, rfl, hpointed.restoredTo h⟩
  | succ m ih =>
    obtain ⟨now, hrun, hnow⟩ := ih
    obtain ⟨now', hstep, hnow'⟩ := restoreView_restored h (fun i hi hnew => hpointed.kept i (h.lt hi) hi hnew) hnow
    refine ⟨now', ?_, hnow'⟩
    rw [range_succ, foldlM_append, hrun]
    simpa using hstep

end

section
variable {vs : List View} {st : SpanState} {a : Interval}

theorem View.extent_pos {v : View} (h : v.extent = some a) : 0 < a.2 := by
  unfold View.extent at h
  split at h
  · cases h
  next bytes _ =>
    split at h
    · cases h
    next hpos =>
      cases h
      omega

theorem View.InMemory.ends {v : View} (hmemory : v.InMemory) (h : v.extent = some a) :
    a.1 = v.desc.aligned + v.desc.offset.toNat * v.elem.bytes ∧ a.1 + a.2 ≤ memoryEnd := by
  unfold View.extent at h
  unfold View.InMemory at hmemory
  split at h
  · cases h
  next bytes hspan =>
    rw [hspan] at hmemory
    split at h
    · cases h
    next hpos =>
      cases h
      exact ⟨rfl, hmemory.resolve_left hpos⟩

structure Planned (vs : List View) (st : SpanState) : Prop where
  spec : ∃ hull, PlanSpec vs st hull
  measured : ∀ (i : ℕ) (v : View) (a : Interval), vs[i]? = some v → v.extent = some a → 0 < v.elem.bytes ∧ NonNegative v.desc.dims ∧
    (∀ dim ∈ v.desc.dims, 0 < dim.1) ∧ 0 ≤ v.desc.offset ∧ a.2 = (last v.layout + 1) * v.elem.bytes
  dense : ∀ i, (st.views i).packed = true → ∃ (v : View) (s : ℕ), vs[i]? = some v ∧ v.desc.Packs ∧ s < st.num ∧
    (∀ j, (st.views j).span = s ↔ j = i) ∧ (st.views i).place = 0 ∧ 0 < (st.spans s).bytes

theorem planInPlace_planned (hmemory : ∀ v ∈ vs, v.InMemory) (h : planInPlace vs = .ok st) : Planned vs st := by
  unfold planInPlace at h
  split at h
  · cases h
  next ms hms =>
    cases h
    obtain ⟨-, hmeasures⟩ := measureAll_ok hms
    rw [measured_extents hms]
    have hmeasure : ∀ i v, vs[i]? = some v → measure i v = .ok (extents vs i) := by
      intro i v hv
      obtain ⟨m, -, hm⟩ := hmeasures i v hv
      rw [Nat.zero_add] at hm
      rw [hm, measure_extent hm, extents, hv]
      rfl
    have hbeyond : ∀ i, vs.length ≤ i → extents vs i = none := fun i hi => extents_beyond vs hi
    have hok : Measured (extents vs) _ vs (giveSpans (extents vs) vs.length) :=
      ⟨giveSpans_ok (extents vs) vs.length, hmeasure, hmemory, fun s t x hs ht => giveSpans_disjoint hbeyond hs ht⟩
    have hleaves : Leaves (extents vs) vs _ _ := planLoops_leaves hbeyond
    have hmeasured : ∀ (i : ℕ) (v : View) (a : Interval), vs[i]? = some v → v.extent = some a → 0 < v.elem.bytes ∧ NonNegative v.desc.dims ∧
        (∀ dim ∈ v.desc.dims, 0 < dim.1) ∧ 0 ≤ v.desc.offset ∧ a.2 = (last v.layout + 1) * v.elem.bytes := by
      intro i v a hv ha
      obtain ⟨helem, hnonneg, ⟨hnone, -⟩ | ⟨start, bytes, hsome, hsizes, hbytes, hshift, -⟩⟩ := measure_ok (hmeasure i v hv)
      · rw [extents, hv, bind_some, ha] at hnone
        cases hnone
      · rw [extents, hv, bind_some, ha] at hsome
        cases hsome
        exact ⟨helem, hnonneg, hsizes, hshift, hbytes⟩
    refine ⟨⟨_, planLoops_spec vs⟩, hmeasured, fun i hi => ?_⟩
    obtain ⟨s, hs, hview⟩ := (hleaves.packed i).mp hi
    rcases hok.copySpan_cases hs with hwhole | ⟨j, v, first, bytes, hdense⟩
    · rw [hwhole] at hview
      cases hview
    rw [hdense.copy] at hview
    cases hview
    have hextent : v.extent = some (first, bytes) := by
      rw [← hdense.measured, extents, hdense.view]
      rfl
    obtain ⟨helem, hnonneg, hsizes, hshift, hbytes⟩ := hmeasured i v _ hdense.view hextent
    obtain ⟨hstart, hends⟩ := (hmemory v (mem_of_getElem? hdense.view)).ends hextent
    have hcount := count_le_last hdense.injective
    have hplaces : last v.layout + 1 ≤ (last v.layout + 1) * v.elem.bytes := Nat.le_mul_of_pos_right _ helem
    have hoffset : v.desc.offset.toNat ≤ v.desc.offset.toNat * v.elem.bytes := Nat.le_mul_of_pos_right _ helem
    simp only [memoryEnd] at hends
    have hpacks : v.desc.Packs := by
      refine ⟨hsizes, hnonneg, hshift, ?_, ?_⟩
      · rw [show layoutOf v.desc.dims = v.layout from rfl]
        omega
      · rw [show layoutOf v.desc.dims = v.layout from rfl]
        omega
    refine ⟨v, s, hdense.view, hpacks, hleaves.num ▸ hs, fun k => (hleaves.span k s).trans (hdense.only k), ?_, ?_⟩
    · rw [hleaves.place i _ s hdense.measured ((hdense.only i).mpr rfl), hdense.start, Nat.sub_self]
    · rw [hleaves.spans s hs, hdense.copy]
      exact Nat.mul_pos (count_pos (layout_pos hsizes)) helem

variable {own copy : ℕ → ℕ} {descs : List (Option ℕ)} {heap : ℕ → Memref}

theorem extents_pos {i : ℕ} (h : extents vs i = some a) : 0 < a.2 := by
  obtain ⟨v, -, hv⟩ := Option.bind_eq_some_iff.mp h
  exact View.extent_pos hv

theorem Planned.homed (hplan : Planned vs st) (h : Setting vs st own copy descs heap) :
    Homed vs st own copy descs heap := by
  obtain ⟨hull, hspec⟩ := hplan.spec
  -- The place of a view is inside the copy of its span.
  have hplace : ∀ i a, extents vs i = some a → ∃ s < st.num, (st.views i).span = s ∧
      a.1 = (st.spans s).start + (st.views i).place ∧ (st.views i).place < (st.spans s).bytes := by
    intro i a ha
    obtain ⟨s, hs, hspan, hstart, hends⟩ := hspec.placed i a ha
    have hpos := extents_pos ha
    refine ⟨s, hs, hspan, hstart, ?_⟩
    rcases hspec.copies s hs with ⟨hwhole, -⟩ | ⟨j, v, -, hmembers, hpacked, -⟩
    · rw [hwhole] at hstart ⊢
      simp only at hstart ⊢
      omega
    · obtain rfl := (hmembers i).mp hspan
      obtain ⟨-, t, -, -, ht, honly, hzero, hbytes⟩ := hplan.dense i hpacked
      have heq := (honly i).mpr rfl
      rw [hspan, Int.ofNat_inj] at heq
      rw [hzero, heq]
      exact hbytes
  have hhome : ∀ i s, (st.views i).span = (s : ℕ) → home st copy i = copy s + (st.views i).place := by
    intro i s hspan
    rw [home, hspan, Int.toNat_natCast]
  have hspanned : ∀ i, 0 ≤ (st.views i).span ↔ ∃ a, extents vs i = some a := by
    intro i
    cases ha : extents vs i with
    | none => simp [hspec.empty i ha]
    | some a =>
      obtain ⟨s, -, hspan, -⟩ := hplace i a ha
      simp [hspan]
  have hsame : ∀ i j a b, extents vs i = some a → extents vs j = some b → home st copy i = home st copy j →
      (st.views i).span = (st.views j).span ∧ (st.views i).place = (st.views j).place := by
    intro i j a b ha hb heq
    obtain ⟨s, hs, hspan, -, hlt⟩ := hplace i a ha
    obtain ⟨t, ht, hspan', -, hlt'⟩ := hplace j b hb
    have hi := hhome i s hspan
    have hj := hhome j t hspan'
    obtain rfl := h.apart s hs t ht (home st copy i) ⟨by simp only; omega, by simp only; omega⟩
      ⟨by simp only; omega, by simp only; omega⟩
    exact ⟨hspan.trans hspan'.symm, by omega⟩
  refine ⟨h, hspanned, fun i j a b ha hb => ⟨fun heq => ?_, fun heq => ?_⟩, fun i j hi hj hpacked heq => ?_,
    fun i hi p hp heq => ?_⟩
  · obtain ⟨hspan, hplaces⟩ := hsame i j a b ha hb heq
    obtain ⟨s, -, hs, hstart, -⟩ := hplace i a ha
    obtain ⟨t, -, ht, hstart', -⟩ := hplace j b hb
    obtain rfl : s = t := by omega
    omega
  · have hoverlap : Overlaps (extents vs) i j := by
      have := extents_pos ha
      have := extents_pos hb
      exact ⟨a, b, ha, hb, by omega, by omega⟩
    have hspan := (hspec.same i j a b ha hb).mpr (.single hoverlap)
    obtain ⟨s, -, hs, hstart, -⟩ := hplace i a ha
    obtain ⟨t, -, ht, hstart', -⟩ := hplace j b hb
    obtain rfl : s = t := by omega
    rw [hhome i s hs, hhome j s ht]
    omega
  · obtain ⟨a, ha⟩ := (hspanned i).mp hi
    obtain ⟨b, hb⟩ := (hspanned j).mp hj
    obtain ⟨v, s, -, -, -, honly, -⟩ := hplan.dense i hpacked
    have hspan := (hsame i j a b ha hb heq).1
    exact ((honly j).mp (hspan ▸ (honly i).mpr rfl)).symm
  · obtain ⟨a, ha⟩ := (hspanned i).mp hi
    obtain ⟨s, hs, hspan, -, hlt⟩ := hplace i a ha
    have hi := hhome i s hspan
    exact h.fresh p hp s hs ⟨by simp only; omega, by simp only; omega⟩

end

variable {vs : List View} {st : SpanState} {own copy : ℕ → ℕ} {descs : List (Option ℕ)} {heap : ℕ → Memref}

theorem sameElements_iff {v w : View} {a b : Interval} (hv : v.InMemory) (hw : w.InMemory) (ha : v.extent = some a)
    (hb : w.extent = some b) (hstart : a.1 = b.1) (helem : 0 < v.elem.bytes) (hshift : 0 ≤ v.desc.offset)
    (hshift' : 0 ≤ w.desc.offset) (hsizes : ∀ dim ∈ w.desc.dims, 0 < dim.1) :
    SameElements w.elem w.desc ⟨v.desc.aligned, addI64 0 v.desc.offset, w.desc.dims⟩ ↔
      v.desc.offset = 0 ∨ v.elem.bytes = w.elem.bytes := by
  obtain ⟨hfirst, hends⟩ := hv.ends ha
  obtain ⟨hfirst', hends'⟩ := hw.ends hb
  obtain ⟨n, hn⟩ := Int.eq_ofNat_of_zero_le hshift
  obtain ⟨m, hm⟩ := Int.eq_ofNat_of_zero_le hshift'
  rw [hn, Int.toNat_natCast] at hfirst
  rw [hm, Int.toNat_natCast] at hfirst'
  simp only [memoryEnd] at hends hends'
  have hle : n ≤ n * v.elem.bytes := Nat.le_mul_of_pos_right _ helem
  have hmul : n * w.elem.bytes ≤ n * 8 := Nat.mul_le_mul_left n w.elem.bytes_le
  have hadd : addI64 0 v.desc.offset = n := by rw [addI64_eq] <;> omega
  rw [hadd]
  constructor
  · intro hsame
    have hzero : Inside (w.desc.dims.map fun _ => 0) (layoutOf w.desc.dims) :=
      inside_corner w.desc.dims (fun _ => 0) fun dim hdim => hsizes dim hdim
    have haddress := hsame.address _ hzero
    simp only [Desc.address, Desc.element, distance_zero, Int.add_zero, hm, ← Int.natCast_mul, ← Int.natCast_add,
      ← Int.natCast_emod, Int.toNat_natCast, addressSpace] at haddress
    have heq : n * v.elem.bytes = n * w.elem.bytes := by omega
    rcases Nat.eq_zero_or_pos n with hzero | hpos
    · exact .inl (by omega)
    · exact .inr (Nat.eq_of_mul_eq_mul_left hpos heq)
  · intro hagree
    have heq : n * v.elem.bytes = n * w.elem.bytes := by
      rcases hagree with hzero | heq
      · obtain rfl : n = 0 := by omega
        rw [Nat.zero_mul, Nat.zero_mul]
      · rw [heq]
    refine ⟨rfl, fun index _ => ?_⟩
    have hbase : (v.desc.aligned + n * w.elem.bytes : ℤ) = w.desc.aligned + m * w.elem.bytes := by
      omega
    simp only [Desc.address, Desc.element, hm, Int.add_mul]
    rw [← Int.add_assoc, ← Int.add_assoc, hbase]

theorem Homed.exists_first (h : Homed vs st own copy descs heap) {j : ℕ} (hj : 0 ≤ (st.views j).span) :
    ∃ i < vs.length, 0 ≤ (st.views i).span ∧ home st copy i = home st copy j ∧
      ∀ k < i, 0 ≤ (st.views k).span → home st copy k ≠ home st copy i := by
  have hsome : ¬ ∀ i < vs.length, ¬ (0 ≤ (st.views i).span ∧ home st copy i = home st copy j) :=
    fun hnone => hnone j (h.lt hj) ⟨hj, rfl⟩
  obtain ⟨i, hi, ⟨hspan, hsame⟩, hfirst⟩ := Remote.exists_first hsome
  exact ⟨i, hi, hspan, hsame, fun k hk hspan heq => hfirst k hk ⟨hspan, heq.trans hsame⟩⟩

theorem SameElements.refl (elem : Dtype) (d : Desc) : SameElements elem d d := ⟨rfl, fun _ _ => rfl⟩

theorem sameElements_back (hmemory : ∀ v ∈ vs, v.InMemory) (hplan : Planned vs st) (h : Homed vs st own copy descs heap)
    {heap' : ℕ → Memref} (hback : RestoredTo st own copy heap vs.length heap') {i j : ℕ} {v w : View} {a b : Interval}
    (hv : vs[i]? = some v) (hw : vs[j]? = some w) (ha : v.extent = some a) (hb : w.extent = some b) (hstart : a.1 = b.1)
    (hfirst : ∀ k < i, 0 ≤ (st.views k).span → home st copy k ≠ home st copy i) :
    SameElements w.elem (heap (own j)).toDesc (heap' (own j)).toDesc ↔ v.desc.offset = 0 ∨ v.elem.bytes = w.elem.bytes := by
  have hextent : extents vs i = some a := by rw [extents, hv, bind_some, ha]
  have hextent' : extents vs j = some b := by rw [extents, hw, bind_some, hb]
  have hi := (h.spanned i).mpr ⟨a, hextent⟩
  have hj := (h.spanned j).mpr ⟨b, hextent'⟩
  have hhome := (h.same i j a b hextent hextent').mpr hstart
  rw [hback.back j hj i (h.lt hi) hi hhome hfirst, givenBack]
  cases hpacked : (st.views i).packed with
  | true =>
    obtain rfl := h.alone i j hi hj hpacked hhome
    cases hv.symm.trans hw
    exact ⟨fun _ => .inr rfl, fun _ => .refl _ _⟩
  | false =>
    obtain ⟨helem, -, -, hshift, -⟩ := hplan.measured i v a hv ha
    obtain ⟨-, -, hsizes, hshift', -⟩ := hplan.measured j w b hw hb
    simp only [Bool.false_eq_true, if_false, h.desc i v hv, h.desc j w hw]
    exact sameElements_iff (hmemory v (mem_of_getElem? hv)) (hmemory w (mem_of_getElem? hw)) ha hb hstart helem
      hshift hshift' hsizes

theorem givesBack_iff (hmemory : ∀ v ∈ vs, v.InMemory) (hplan : Planned vs st)
    (h : Setting vs st own copy descs heap) : GivesBack vs st own copy descs heap ↔ StartsAgree vs := by
  have hhomed := hplan.homed h
  obtain ⟨heap', hrestore, hback⟩ := viewCopyRestore_restored hhomed
  have hextents : ∀ {i : ℕ} {v : View} {a : Interval}, vs[i]? = some v → v.extent = some a → extents vs i = some a := by
    intro i v a hv ha
    rw [extents, hv, bind_some, ha]
  constructor
  · rintro ⟨heap'', hrestore', hsame⟩ i v a hv ha hfirst j w b hw hb hstart
    cases hrestore.symm.trans hrestore'
    refine (sameElements_back hmemory hplan hhomed hback hv hw ha hb hstart fun k hk hspan heq => ?_).mp (hsame j w hw)
    obtain ⟨c, hc⟩ := (hhomed.spanned k).mp hspan
    exact hfirst k hk c hc ((hhomed.same k i c a hc (hextents hv ha)).mp heq)
  · refine fun hagree => ⟨heap', hrestore, fun j w hw => ?_⟩
    cases hb : w.extent with
    | none =>
      have hempty : ∀ i, 0 ≤ (st.views i).span → own i ≠ own j := by
        intro i hi hown
        obtain ⟨a, ha⟩ := (hhomed.spanned i).mp hi
        rw [extents, h.one i (hhomed.lt hi) j (List.getElem?_eq_some_iff.mp hw).1 hown, hw, bind_some, hb] at ha
        cases ha
      rw [hback.untouched (own j) hempty]
      exact .refl _ _
    | some b =>
      have hj := (hhomed.spanned j).mpr ⟨b, hextents hw hb⟩
      obtain ⟨i, -, hi, hhome, hfirst⟩ := hhomed.exists_first hj
      obtain ⟨a, hextent⟩ := (hhomed.spanned i).mp hi
      obtain ⟨v, hv, ha⟩ := Option.bind_eq_some_iff.mp hextent
      have hstart := (hhomed.same i j a b hextent (hextents hw hb)).mp hhome
      refine (sameElements_back hmemory hplan hhomed hback hv hw ha hb hstart hfirst).mpr
        (hagree i v a hv ha (fun k hk c hc heq => ?_) j w b hw hb hstart)
      exact hfirst k hk ((hhomed.spanned k).mpr ⟨c, hc⟩) ((hhomed.same k i c a hc hextent).mpr heq)

/-- A descriptor into a dense copy is given back exactly, and the descriptors of the views are when the offsets of views
that start together are counted in elements of one size. -/
theorem giving_back_iff (hmemory : ∀ v ∈ vs, v.InMemory) (hplan : planInPlace vs = .ok st)
    (h : Setting vs st own copy descs heap) :
    ((∀ i v, vs[i]? = some v → (st.views i).packed = true → UnpackExact v.desc) ∧
      GivesBack vs st own copy descs heap) ↔ StartsAgree vs := by
  have hplanned := planInPlace_planned hmemory hplan
  rw [givesBack_iff hmemory hplanned h, and_iff_right_iff_imp]
  intro _ i v hv hpacked
  obtain ⟨w, s, hw, hpacks, -⟩ := hplanned.dense i hpacked
  cases hv.symm.trans hw
  exact unpack_exact hpacks

theorem planInPlace_of_fits (h : ∀ v ∈ vs, v.Fits) : planInPlace vs = .ok (planLoops (extents vs) vs) := by
  obtain ⟨ms, hms⟩ := measureAll_of_fits h 0
  rw [planInPlace, hms, ← measured_extents hms]

def descriptors (vs : List View) (p : ℕ) : Memref :=
  match vs[p]? with
  | none => ⟨⟨0, 0, []⟩, 0⟩
  | some v => ⟨v.desc, v.desc.aligned⟩

def listedAll (vs : List View) : List (Option ℕ) := (List.range vs.length).map some

def copyAt (s : ℕ) : ℕ := 4096 * (s + 1)

theorem descriptors_setting {vs : List View} {st : SpanState} (hbelow : ∀ v ∈ vs, v.desc.aligned < 4096)
    (hbytes : ∀ s < st.num, (st.spans s).bytes ≤ 4096) : Setting vs st id copyAt (listedAll vs) (descriptors vs) where
  desc i v hv := by simp [descriptors, hv]
  one i _ j _ hown := by rw [show i = j from hown]
  listed i hi := List.mem_map.mpr ⟨i, List.mem_range.mpr hi, rfl⟩
  apart s hs t ht x hx hx' := by
    have := hbytes s hs
    have := hbytes t ht
    simp only [Holds, copyAt] at hx hx'
    omega
  fresh p hp s hs hx := by
    have hlow : (descriptors vs p).aligned < 4096 := by
      unfold descriptors
      split
      · decide
      next v hv => exact hbelow v (mem_of_getElem? hv)
    simp only [Holds, copyAt] at hx
    omega

def sameTypeViews : List View :=
  [⟨⟨1000, 2, [(2, 1)]⟩, .f32⟩, ⟨⟨1000, 2, [(4, 1)]⟩, .f32⟩, ⟨⟨2000, 1, [(3, 4)]⟩, .f32⟩]

theorem giving_back_same_type : ∃ st, planInPlace sameTypeViews = .ok st ∧ (st.views 2).packed = true ∧
    UnpackExact ⟨2000, 1, [(3, 4)]⟩ ∧
      GivesBack sameTypeViews st id copyAt (listedAll sameTypeViews) (descriptors sameTypeViews) := by
  have hplan : planInPlace sameTypeViews = .ok (planLoops (extents sameTypeViews) sameTypeViews) :=
    planInPlace_of_fits (by decide)
  have hpacked : ((planLoops (extents sameTypeViews) sameTypeViews).views 2).packed = true := by decide
  have hagree : StartsAgree sameTypeViews := by
    intro i v a hv _ _ j w b hw _ _
    have helem : ∀ v ∈ sameTypeViews, v.elem = .f32 := by decide
    rw [helem v (mem_of_getElem? hv), helem w (mem_of_getElem? hw)]
    exact .inr rfl
  obtain ⟨hexact, hback⟩ := (giving_back_iff (by decide) hplan
    (descriptors_setting (by decide) (by decide))).mpr hagree
  exact ⟨_, hplan, hpacked, hexact 2 _ rfl hpacked, hback⟩

def mixedViews : List View := [⟨⟨1000, 2, [(2, 1)]⟩, .f32⟩, ⟨⟨1000, 1, [(1, 1)]⟩, .f64⟩]

theorem second_view_moves : ∃ st heap', planInPlace mixedViews = .ok st ∧
    Setting mixedViews st id copyAt (listedAll mixedViews) (descriptors mixedViews) ∧
    viewCopyRestore mixedViews st id copyAt (viewCopyPointAt mixedViews st id copyAt (descriptors mixedViews)).kept
      (listedAll mixedViews) (viewCopyPointAt mixedViews st id copyAt (descriptors mixedViews)).heap = some heap' ∧
    (descriptors mixedViews 1).address .f64 [0] = 1008 ∧ (heap' 1).address .f64 [0] = 1016 := by
  have hplan : planInPlace mixedViews = .ok (planLoops (extents mixedViews) mixedViews) :=
    planInPlace_of_fits (by decide)
  have hmoved : (viewCopyRestore mixedViews (planLoops (extents mixedViews) mixedViews) id copyAt
      (viewCopyPointAt mixedViews (planLoops (extents mixedViews) mixedViews) id copyAt (descriptors mixedViews)).kept
      (listedAll mixedViews)
      (viewCopyPointAt mixedViews (planLoops (extents mixedViews) mixedViews) id copyAt (descriptors mixedViews)).heap).map
        (fun heap => (heap 1).address .f64 [0]) = some 1016 := by
    decide
  obtain ⟨heap', hrestore, haddress⟩ := Option.map_eq_some_iff.mp hmoved
  exact ⟨_, heap', hplan, descriptors_setting (by decide) (by decide), hrestore, by decide, haddress⟩

end Vx.Remote
