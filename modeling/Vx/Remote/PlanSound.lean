import Vx.Remote.Blocks
import Vx.Remote.Spans

namespace Vx.Remote

open Option Bool Int
open Lib.Grouping (Interval)
open Lib.Strided

section

def layoutOf (dims : List (ℤ × ℤ)) : Layout := dims.map fun dim => (dim.1.toNat, dim.2.toNat)

def NonNegative (dims : List (ℤ × ℤ)) : Prop := ∀ dim ∈ dims, 0 ≤ dim.1 ∧ 0 ≤ dim.2

variable {dims : List (ℤ × ℤ)}

theorem foldlM_last {acc : ℕ} (hacc : acc < addressSpace) :
    dims.foldlM (fun last dim => (mulU64 (dim.1 - 1).toNat dim.2.toNat).bind (addU64 last)) acc =
      if acc + last (layoutOf dims) < addressSpace then some (acc + last (layoutOf dims)) else none := by
  induction dims generalizing acc with
  | nil => exact (if_pos hacc).symm
  | cons dim dims ih =>
    have hsize : (dim.1 - 1).toNat = dim.1.toNat - 1 := by omega
    have hlast : last (layoutOf (dim :: dims)) = (dim.1.toNat - 1) * dim.2.toNat + last (layoutOf dims) := rfl
    rw [List.foldlM_cons, hsize, hlast, ← Nat.add_assoc, mulU64]
    by_cases hstep : acc + (dim.1.toNat - 1) * dim.2.toNat < addressSpace
    · rw [if_pos (by omega), bind_some, addU64, if_pos hstep]
      exact ih hstep
    rw [if_neg (by omega : ¬ acc + (dim.1.toNat - 1) * dim.2.toNat + last (layoutOf dims) < addressSpace)]
    split_ifs
    · rw [bind_some, addU64, if_neg hstep]
      rfl
    · rfl

theorem memrefViewSpan_negative {elem : Dtype} (helem : 0 < elem.bytes) (h : ¬ NonNegative dims) :
    ∃ dim, memrefViewSpan dims elem = .error (.negative dim) := by
  unfold memrefViewSpan
  rw [if_neg helem.ne']
  split
  next dim _ => exact ⟨dim, rfl⟩
  next hsigns =>
    refine absurd (fun dim hdim => ?_) h
    have := List.findIdx?_eq_none_iff.mp hsigns dim hdim
    simp only [or_eq_false_iff, decide_eq_false_iff_not, not_lt] at this
    exact this

theorem memrefViewSpan_spec {elem : Dtype} (helem : 0 < elem.bytes) (hnonneg : NonNegative dims) :
    memrefViewSpan dims elem = if ∃ dim ∈ dims, dim.1 = 0 then .ok 0
      else if addressSpace ≤ last (layoutOf dims) + 1 then .error .tooManyElements
      else if addressSpace ≤ (last (layoutOf dims) + 1) * elem.bytes then .error .tooManyBytes
      else .ok ((last (layoutOf dims) + 1) * elem.bytes) := by
  have hsigns : (dims.findIdx? fun dim => dim.1 < 0 || dim.2 < 0) = none := by
    rw [List.findIdx?_eq_none_iff]
    intro dim hdim
    have := hnonneg dim hdim
    simp only [or_eq_false_iff, decide_eq_false_iff_not]
    omega
  have hempty : (dims.any fun dim => dim.1 = 0) = true ↔ ∃ dim ∈ dims, dim.1 = 0 := by simp
  simp only [memrefViewSpan, if_neg helem.ne', hsigns, hempty, foldlM_last (show 0 < addressSpace by decide), Nat.zero_add]
  refine if_congr Iff.rfl rfl ?_
  by_cases hcount : last (layoutOf dims) + 1 < addressSpace
  · simp only [if_pos (Nat.lt_of_succ_lt hcount), addU64, if_pos hcount, if_neg hcount.not_ge, mulU64]
    split_ifs <;> first | rfl | omega
  · rw [if_pos (Nat.le_of_not_lt hcount)]
    split_ifs <;> simp only [addU64, if_neg hcount]

theorem memrefViewSpan_ok {elem : Dtype} {bytes : ℕ} (h : memrefViewSpan dims elem = .ok bytes) :
    0 < elem.bytes ∧ NonNegative dims ∧ (bytes = 0 ∧ (∃ dim ∈ dims, dim.1 = 0) ∨
      0 < bytes ∧ (∀ dim ∈ dims, 0 < dim.1) ∧ bytes = (last (layoutOf dims) + 1) * elem.bytes) := by
  have helem : 0 < elem.bytes := by
    by_contra hzero
    rw [memrefViewSpan, if_pos (by omega)] at h
    cases h
  have hnonneg : NonNegative dims := by
    by_contra hneg
    obtain ⟨dim, hdim⟩ := memrefViewSpan_negative helem hneg
    rw [hdim] at h
    cases h
  refine ⟨helem, hnonneg, ?_⟩
  rw [memrefViewSpan_spec helem hnonneg] at h
  split_ifs at h with hempty
  · cases h
    exact .inl ⟨rfl, hempty⟩
  · cases h
    refine .inr ⟨Nat.mul_pos (Nat.succ_pos _) helem, fun dim hdim => ?_, rfl⟩
    have hne : dim.1 ≠ 0 := fun hzero => hempty ⟨dim, hdim, hzero⟩
    have := (hnonneg dim hdim).1
    omega

theorem memrefViewSpan_eq {elem : Dtype} (helem : 0 < elem.bytes) (hnonneg : NonNegative dims)
    (hsizes : ∀ dim ∈ dims, 0 < dim.1) (hfits : (last (layoutOf dims) + 1) * elem.bytes < addressSpace) :
    memrefViewSpan dims elem = .ok ((last (layoutOf dims) + 1) * elem.bytes) := by
  have hfull : ¬ ∃ dim ∈ dims, dim.1 = 0 := fun ⟨dim, hdim, hzero⟩ => (hsizes dim hdim).ne' hzero
  have hcount : last (layoutOf dims) + 1 < addressSpace := (Nat.le_mul_of_pos_right _ helem).trans_lt hfits
  rw [memrefViewSpan_spec helem hnonneg, if_neg hfull, if_neg hcount.not_ge, if_neg hfits.not_ge]

def viewEnds (dims : List (ℤ × ℤ)) (elem : Dtype) : Set ℕ :=
  {e | ∃ is, Inside is (layoutOf dims) ∧ e = (offset is (layoutOf dims) + 1) * elem.bytes}

def SpanOf (dims : List (ℤ × ℤ)) (elem : Dtype) (bytes : ℕ) : Prop :=
  if ∃ dim ∈ dims, dim.1 = 0 then bytes = 0 else IsGreatest (viewEnds dims elem) bytes

theorem spanOf_iff {elem : Dtype} {bytes : ℕ} (hnonneg : NonNegative dims) (hfull : ¬ ∃ dim ∈ dims, dim.1 = 0) :
    SpanOf dims elem bytes ↔ bytes = (last (layoutOf dims) + 1) * elem.bytes := by
  have hsizes : ∀ dim ∈ layoutOf dims, 0 < dim.1 := by
    intro dim hdim
    obtain ⟨d, hd, rfl⟩ := List.mem_map.mp hdim
    have hne : d.1 ≠ 0 := fun hzero => hfull ⟨d, hd, hzero⟩
    have := (hnonneg d hd).1
    show 0 < d.1.toNat
    omega
  have hgreatest : IsGreatest (viewEnds dims elem) ((last (layoutOf dims) + 1) * elem.bytes) := by
    obtain ⟨is, his, hoffset⟩ := exists_offset_eq_last hsizes
    refine ⟨⟨is, his, by rw [hoffset]⟩, ?_⟩
    rintro _ ⟨is', his', rfl⟩
    exact Nat.mul_le_mul_right _ (Nat.succ_le_succ (offset_le_last his'))
  rw [SpanOf, if_neg hfull]
  refine ⟨fun h => h.unique hgreatest, ?_⟩
  rintro rfl
  exact hgreatest

theorem memrefViewSpan_eq_ok_iff {elem : Dtype} {bytes : ℕ} (helem : 0 < elem.bytes) (hnonneg : NonNegative dims) :
    memrefViewSpan dims elem = .ok bytes ↔ bytes < addressSpace ∧ SpanOf dims elem bytes := by
  rw [memrefViewSpan_spec helem hnonneg]
  by_cases hempty : ∃ dim ∈ dims, dim.1 = 0
  · rw [if_pos hempty, SpanOf, if_pos hempty, Except.ok.injEq, eq_comm]
    refine ⟨fun h => ⟨h ▸ by decide, h⟩, And.right⟩
  · rw [if_neg hempty, spanOf_iff hnonneg hempty]
    have hle := Nat.le_mul_of_pos_right (last (layoutOf dims) + 1) helem
    split_ifs <;> simp only [Except.ok.injEq, false_iff] <;> omega

def ViewFault.code : ViewFault → ℕ
  | .unknownElement => 1
  | .negative _ => 2
  | .tooManyElements => 3
  | .tooManyBytes => 4

theorem view_span_exact :
    (∀ dims elem bytes, memrefViewSpan dims elem = .ok bytes ↔
      0 < elem.bytes ∧ NonNegative dims ∧ bytes < addressSpace ∧ SpanOf dims elem bytes) ∧
      ∀ dims dims' elem, dims.Perm dims' →
        (memrefViewSpan dims elem).mapError ViewFault.code = (memrefViewSpan dims' elem).mapError ViewFault.code := by
  constructor
  · intro dims elem bytes
    constructor
    · intro h
      obtain ⟨helem, hnonneg, -⟩ := memrefViewSpan_ok h
      exact ⟨helem, hnonneg, (memrefViewSpan_eq_ok_iff helem hnonneg).mp h⟩
    · rintro ⟨helem, hnonneg, h⟩
      exact (memrefViewSpan_eq_ok_iff helem hnonneg).mpr h
  · intro dims dims' elem hperm
    rcases Nat.eq_zero_or_pos elem.bytes with hzero | helem
    · simp [memrefViewSpan, hzero]
    have hsigns : NonNegative dims ↔ NonNegative dims' := by simp only [NonNegative, hperm.mem_iff]
    by_cases hnonneg : NonNegative dims
    · have hlast : last (layoutOf dims) = last (layoutOf dims') := last_perm (hperm.map _)
      simp only [memrefViewSpan_spec helem hnonneg, memrefViewSpan_spec helem (hsigns.mp hnonneg), hlast, hperm.mem_iff]
    obtain ⟨d, hd⟩ := memrefViewSpan_negative helem hnonneg
    obtain ⟨d', hd'⟩ := memrefViewSpan_negative helem (hsigns.not.mp hnonneg)
    rw [hd, hd']
    rfl

theorem measure_ok {i : ℕ} {v : View} {m : Option Interval} (h : measure i v = .ok m) :
    0 < v.elem.bytes ∧ NonNegative v.desc.dims ∧ (m = none ∧ (∃ dim ∈ v.desc.dims, dim.1 = 0) ∨
      ∃ start bytes, m = some (start, bytes) ∧ (∀ dim ∈ v.desc.dims, 0 < dim.1) ∧
        bytes = (last v.layout + 1) * v.elem.bytes ∧ 0 ≤ v.desc.offset ∧
        start = v.desc.aligned + v.desc.offset.toNat * v.elem.bytes) := by
  unfold measure at h
  split at h
  · cases h
  next bytes hspan =>
    obtain ⟨hpos, hnonneg, hbytes⟩ := memrefViewSpan_ok hspan
    refine ⟨hpos, hnonneg, ?_⟩
    split at h
    next hzero =>
      cases h
      rcases hbytes with ⟨-, hempty⟩ | ⟨hne, -⟩
      · exact .inl ⟨rfl, hempty⟩
      · omega
    next hne =>
      split at h
      · cases h
      next hoffset =>
        split at h
        · cases h
        next first hfirst =>
          split at h
          · cases h
          · cases h
            rcases hbytes with ⟨hzero, -⟩ | ⟨-, hsizes, hbytes⟩
            · exact absurd hzero hne
            obtain ⟨product, hproduct, hsum⟩ := Option.bind_eq_some_iff.mp hfirst
            unfold mulU64 at hproduct
            unfold addU64 at hsum
            split at hproduct
            · split at hsum
              · cases hproduct
                cases hsum
                exact .inr ⟨_, _, rfl, hsizes, hbytes, by omega, rfl⟩
              · cases hsum
            · cases hproduct

theorem measureAll_ok {i : ℕ} {vs : List View} {ms : List (Option Interval)} (h : measureAll i vs = .ok ms) :
    ms.length = vs.length ∧ ∀ k v, vs[k]? = some v → ∃ m, ms[k]? = some m ∧ measure (i + k) v = .ok m := by
  induction vs generalizing i ms with
  | nil =>
    cases h
    simp
  | cons v vs ih =>
    rw [measureAll] at h
    split at h
    · cases h
    next m hm =>
      split at h
      · cases h
      next ms' hms =>
        cases h
        obtain ⟨hlength, hall⟩ := ih hms
        refine ⟨by simp [hlength], fun k v' hk => ?_⟩
        cases k with
        | zero =>
          cases hk
          exact ⟨m, rfl, hm⟩
        | succ k =>
          obtain ⟨m', hm', hmeasure⟩ := hall k v' hk
          exact ⟨m', hm', by rwa [Nat.add_right_comm, Nat.add_assoc] at hmeasure⟩

end

theorem sink_perm (stride : ℕ → ℤ) (d : ℕ) (ds : List ℕ) : (sink stride d ds).Perm (d :: ds) := by
  induction ds with
  | nil => rfl
  | cons e ds ih =>
    rw [sink]
    split
    · exact (ih.cons e).trans (.swap ..)
    · rfl

theorem sortDims_perm (stride : ℕ → ℤ) (ds : List ℕ) : (sortDims stride ds).Perm ds := by
  have hfold : ∀ ds acc : List ℕ, (ds.foldl (fun sorted d => sink stride d sorted) acc).Perm (ds ++ acc) := by
    intro ds
    induction ds with
    | nil => exact fun acc => .rfl
    | cons d ds ih =>
      intro acc
      exact (ih _).trans (((sink_perm stride d acc).append_left ds).trans List.perm_middle)
  simpa [sortDims] using hfold ds []

theorem nested_of_startsPast {size stride : ℕ → ℤ} {ds : List ℕ} (h : startsPast size stride ds = true)
    (hpos : ∀ d ∈ ds, 0 < stride d) (hsize : ∀ d ∈ ds, 0 ≤ size d)
    (hmul : ∀ d ∈ ds, mulI64 (stride d) (size d) = stride d * size d) :
    Nested (fun d => (size d).toNat) (fun d => (stride d).toNat) ds := by
  induction ds with
  | nil => trivial
  | cons d ds ih =>
    cases ds with
    | nil =>
      have := hpos d List.mem_cons_self
      change 0 < (stride d).toNat
      omega
    | cons e ds =>
      simp only [startsPast, and_eq_true, not_eq_true', decide_eq_false_iff_not, not_lt] at h
      have hrest : ∀ f ∈ e :: ds, f ∈ d :: e :: ds := fun f hf => List.mem_cons_of_mem _ hf
      refine ⟨?_, ih h.2 (fun f hf => hpos f (hrest f hf)) (fun f hf => hsize f (hrest f hf))
        fun f hf => hmul f (hrest f hf)⟩
      rw [hmul e (hrest e List.mem_cons_self)] at h
      have hstride := hpos e (List.mem_cons_of_mem _ List.mem_cons_self)
      have hsize := hsize e (List.mem_cons_of_mem _ List.mem_cons_self)
      rw [← toNat_mul hstride.le hsize]
      exact Int.toNat_le_toNat h.1

theorem getD_layoutOf (dims : List (ℤ × ℤ)) (d : ℕ) :
    (layoutOf dims).getD d (0, 0) = ((dims.getD d (0, 0)).1.toNat, (dims.getD d (0, 0)).2.toNat) := by
  simp only [layoutOf, List.getD_eq_getElem?_getD, List.getElem?_map]
  cases dims[d]? <;> rfl

theorem mulI64_eq {a b : ℤ} (hnonneg : 0 ≤ a * b) (hlt : a * b < 2 ^ 63) : mulI64 a b = a * b := by
  rw [mulI64, bmod_eq_of_le_mul_two] <;> simp only [addressSpace] <;> omega

theorem mulI64_of_way {stride size : ℤ} (hstride : 0 < stride) (hsize : 1 < size)
    (hway : (size.toNat - 1) * stride.toNat < 2 ^ 62) : mulI64 stride size = stride * size := by
  obtain ⟨n, rfl⟩ := eq_ofNat_of_zero_le hstride.le
  obtain ⟨m, rfl⟩ := eq_ofNat_of_zero_le (show 0 ≤ size by omega)
  rw [toNat_natCast, toNat_natCast] at hway
  have hle : n * m ≤ 2 * ((m - 1) * n) := by
    calc n * m ≤ n * (2 * (m - 1)) := Nat.mul_le_mul_left n (by omega)
      _ = 2 * ((m - 1) * n) := by rw [Nat.mul_left_comm, Nat.mul_comm n]
  have hlt : ((n * m : ℕ) : ℤ) < 2 ^ 63 := by omega
  exact mulI64_eq (Int.mul_nonneg hstride.le (by omega)) hlt

theorem mul_le_last (dims : Layout) (d : ℕ) : ((dims.getD d (0, 0)).1 - 1) * (dims.getD d (0, 0)).2 ≤ last dims := by
  induction dims generalizing d with
  | nil => simp
  | cons dim dims ih =>
    cases d with
    | zero => simp [last]
    | succ d =>
      have := ih d
      simp only [List.getD_cons_succ, last]
      omega

theorem count_le_last {layout : Layout}
    (hinj : ∀ is is', Inside is layout → Inside is' layout → offset is layout = offset is' layout → is = is') :
    count layout ≤ last layout + 1 := by
  have hsub : offsets layout ⊆ List.range (last layout + 1) := by
    intro o ho
    obtain ⟨is, his, rfl⟩ := mem_offsets.mp ho
    have := offset_le_last his
    exact List.mem_range.mpr (by omega)
  have hle := (List.subperm_of_subset (offsets_nodup hinj) hsub).length_le
  rwa [length_offsets, List.length_range] at hle

theorem packable_some {v : View} {bytes dense : ℕ} (h : packable v bytes = some dense) (helem : 0 < v.elem.bytes)
    (hmemory : (last v.layout + 1) * v.elem.bytes ≤ memoryEnd) : dense = count v.layout * v.elem.bytes ∧
      ∀ is is', Inside is v.layout → Inside is' v.layout → offset is v.layout = offset is' v.layout → is = is' := by
  simp only [packable] at h
  split_ifs at h with hrank hstride hnested hdense
  cases h
  have hlast : last v.layout + 1 ≤ 2 ^ 47 := (Nat.le_mul_of_pos_right _ helem).trans hmemory
  suffices hinj : ∀ is is', Inside is v.layout → Inside is' v.layout → offset is v.layout = offset is' v.layout →
      is = is' by
    have hcount := (Nat.mul_le_mul_right v.elem.bytes (count_le_last hinj)).trans hmemory
    refine ⟨Nat.mod_eq_of_lt ?_, hinj⟩
    simp only [memoryEnd] at hcount
    simp only [addressSpace]
    omega
  intro is is' his his' heq
  simp only [not_eq_true', not_eq_false] at hnested
  have hperm := sortDims_perm (fun d => (v.desc.dims.getD d (0, 0)).2)
    ((List.range v.desc.dims.length).filter fun d => 1 < (v.desc.dims.getD d (0, 0)).1)
  have hfilter : ((List.range v.layout.length).filter fun d => 1 < (v.layout.getD d (0, 0)).1) =
      (List.range v.desc.dims.length).filter fun d => 1 < (v.desc.dims.getD d (0, 0)).1 := by
    rw [show v.layout.length = v.desc.dims.length from List.length_map ..]
    refine List.filter_congr fun d _ => ?_
    rw [show v.layout = layoutOf v.desc.dims from rfl, getD_layoutOf]
    simp only [decide_eq_decide]
    omega
  have hpos : ∀ d ∈ sortDims (fun d => (v.desc.dims.getD d (0, 0)).2)
      ((List.range v.desc.dims.length).filter fun d => 1 < (v.desc.dims.getD d (0, 0)).1),
      0 < (v.desc.dims.getD d (0, 0)).2 ∧ 1 < (v.desc.dims.getD d (0, 0)).1 := by
    intro d hd
    have hin := hperm.mem_iff.mp hd
    constructor
    · by_contra hle
      refine hstride (List.any_eq_true.mpr ⟨d, hin, ?_⟩)
      simpa using hle
    · simpa using (List.mem_filter.mp hin).2
  have hmul : ∀ d ∈ sortDims (fun d => (v.desc.dims.getD d (0, 0)).2)
      ((List.range v.desc.dims.length).filter fun d => 1 < (v.desc.dims.getD d (0, 0)).1),
      mulI64 (v.desc.dims.getD d (0, 0)).2 (v.desc.dims.getD d (0, 0)).1 =
        (v.desc.dims.getD d (0, 0)).2 * (v.desc.dims.getD d (0, 0)).1 := by
    intro d hd
    obtain ⟨hstride, hsize⟩ := hpos d hd
    have hway := mul_le_last v.layout d
    rw [show v.layout = layoutOf v.desc.dims from rfl, getD_layoutOf] at hway
    rw [show layoutOf v.desc.dims = v.layout from rfl] at hway
    exact mulI64_of_way hstride hsize (hway.trans_lt (by omega))
  have hnest := nested_of_startsPast hnested (fun d hd => (hpos d hd).1) (fun d hd => (by have := (hpos d hd).2; omega)) hmul
  have hnest' : Nested (fun d => (v.layout.getD d (0, 0)).1) (fun d => (v.layout.getD d (0, 0)).2)
      (sortDims (fun d => (v.desc.dims.getD d (0, 0)).2)
        ((List.range v.desc.dims.length).filter fun d => 1 < (v.desc.dims.getD d (0, 0)).1)) := by
    simpa only [show v.layout = layoutOf v.desc.dims from rfl, getD_layoutOf] using hnest
  exact offset_injective (hperm.trans (by rw [hfilter])) hnest' his his' heq

theorem elementBytes_nodup {start b : ℕ} {layout : Layout}
    (hinj : ∀ is is', Inside is layout → Inside is' layout → offset is layout = offset is' layout → is = is') :
    (elementBytes start b layout).Nodup := by
  refine List.nodup_flatMap.mpr ⟨fun o _ => List.nodup_range.map fun k k' hk => by omega, ?_⟩
  refine (offsets_nodup hinj).imp fun {o o'} hne => ?_
  intro a ha ha'
  obtain ⟨k, hk, rfl⟩ := List.mem_map.mp ha
  obtain ⟨k', hk', heq⟩ := List.mem_map.mp ha'
  have hk := List.mem_range.mp hk
  have hk' := List.mem_range.mp hk'
  apply hne
  have hdiv : (o * b + k) / b = (o' * b + k') / b := by
    congr 1
    omega
  have hb : 0 < b := by omega
  rwa [Nat.mul_comm o, Nat.mul_comm o', Nat.mul_add_div hb, Nat.mul_add_div hb, Nat.div_eq_of_lt hk,
    Nat.div_eq_of_lt hk', Nat.add_zero, Nat.add_zero] at hdiv

section

theorem denseDims_cons (dim : ℤ × ℤ) (dims : List (ℤ × ℤ)) :
    denseDims (dim :: dims) = (dim.1, (dims.map Prod.fst).prod) :: denseDims dims := by
  simp [denseDims, List.mapIdx_cons, denseStride]

theorem toNat_prod {ns : List ℤ} (h : ∀ n ∈ ns, 0 ≤ n) : (ns.prod).toNat = (ns.map Int.toNat).prod ∧ 0 ≤ ns.prod := by
  induction ns with
  | nil => simp
  | cons n ns ih =>
    obtain ⟨heq, hnonneg⟩ := ih fun m hm => h m (List.mem_cons_of_mem _ hm)
    have hn := h n List.mem_cons_self
    rw [List.prod_cons, List.map_cons, List.prod_cons, toNat_mul hn hnonneg, heq]
    exact ⟨rfl, Int.mul_nonneg hn hnonneg⟩

variable {dims : List (ℤ × ℤ)}

theorem sizes_nonneg (h : NonNegative dims) : ∀ n ∈ dims.map Prod.fst, 0 ≤ n := by
  intro n hn
  obtain ⟨dim, hdim, rfl⟩ := List.mem_map.mp hn
  exact (h dim hdim).1

theorem denseDims_nonNegative (h : NonNegative dims) : NonNegative (denseDims dims) := by
  induction dims with
  | nil => simp [denseDims, NonNegative]
  | cons dim dims ih =>
    have hrest : NonNegative dims := fun d hd => h d (List.mem_cons_of_mem _ hd)
    have hprod := (toNat_prod (sizes_nonneg hrest)).2
    rw [denseDims_cons]
    intro d hd
    rcases List.mem_cons.mp hd with rfl | hd
    · exact ⟨(h dim List.mem_cons_self).1, hprod⟩
    · exact ih hrest d hd

theorem layoutOf_denseDims (h : NonNegative dims) : layoutOf (denseDims dims) = dense (layoutOf dims) := by
  induction dims with
  | nil => rfl
  | cons dim dims ih =>
    have hrest : NonNegative dims := fun d hd => h d (List.mem_cons_of_mem _ hd)
    have hprod := (toNat_prod (sizes_nonneg hrest)).1
    have hcount : count (layoutOf dims) = ((dims.map Prod.fst).map Int.toNat).prod := by
      simp [count, layoutOf, Function.comp_def]
    have hcons : dense (layoutOf (dim :: dims)) = (dim.1.toNat, count (layoutOf dims)) :: dense (layoutOf dims) := rfl
    rw [denseDims_cons, layoutOf, List.map_cons, ← layoutOf, ih hrest, hcons, hcount, ← hprod]

theorem denseDims_sizes (dims : List (ℤ × ℤ)) : (denseDims dims).map Prod.fst = dims.map Prod.fst := by
  induction dims with
  | nil => rfl
  | cons dim dims ih => rw [denseDims_cons, List.map_cons, List.map_cons, ih]

theorem last_dense {dims : Layout} (h : ∀ dim ∈ dims, 0 < dim.1) : last (dense dims) + 1 = count dims := by
  induction dims with
  | nil => rfl
  | cons dim dims ih =>
    have hrest := ih fun d hd => h d (List.mem_cons_of_mem _ hd)
    have hpos := h dim List.mem_cons_self
    obtain ⟨n, hn⟩ : ∃ n, dim.1 = n + 1 := ⟨dim.1 - 1, by omega⟩
    rw [dense, last, count_cons, hn, Nat.add_sub_cancel, Nat.succ_mul]
    omega

end

def View.Fits (v : View) : Prop :=
  match memrefViewSpan v.desc.dims v.elem with
  | .error _ => False
  | .ok bytes =>
    bytes = 0 ∨ 0 ≤ v.desc.offset ∧ v.desc.aligned + v.desc.offset.toNat * v.elem.bytes + bytes < addressSpace

instance (v : View) : Decidable v.Fits :=
  match h : memrefViewSpan v.desc.dims v.elem with
  | .error _ => isFalse (by simp [View.Fits, h])
  | .ok bytes => decidable_of_iff
      (bytes = 0 ∨ 0 ≤ v.desc.offset ∧ v.desc.aligned + v.desc.offset.toNat * v.elem.bytes + bytes < addressSpace)
      (by simp [View.Fits, h])

theorem View.Fits.measure {v : View} (h : v.Fits) (i : ℕ) : ∃ m, measure i v = .ok m := by
  unfold View.Fits at h
  split at h
  · cases h
  next bytes hspan =>
    simp only [Remote.measure, hspan]
    split
    · exact ⟨none, rfl⟩
    next hpos =>
      obtain ⟨hshift, hend⟩ := h.resolve_left hpos
      have hmul : mulU64 v.desc.offset.toNat v.elem.bytes = some (v.desc.offset.toNat * v.elem.bytes) := by
        rw [mulU64, if_pos (by omega)]
      have hadd : addU64 v.desc.aligned (v.desc.offset.toNat * v.elem.bytes) =
          some (v.desc.aligned + v.desc.offset.toNat * v.elem.bytes) := by
        rw [addU64, if_pos (by omega)]
      rw [if_neg (by omega), hmul, bind_some, hadd]
      simp only [addU64, if_pos hend]
      exact ⟨_, rfl⟩

theorem measureAll_of_fits {vs : List View} (h : ∀ v ∈ vs, v.Fits) (i : ℕ) : ∃ ms, measureAll i vs = .ok ms := by
  induction vs generalizing i with
  | nil => exact ⟨[], rfl⟩
  | cons v vs ih =>
    obtain ⟨m, hm⟩ := (h v List.mem_cons_self).measure i
    obtain ⟨ms, hms⟩ := ih (fun v hv => h v (List.mem_cons_of_mem _ hv)) (i + 1)
    exact ⟨m :: ms, by simp only [measureAll, hm, hms]⟩

theorem viewCopyPlan_of_fits {vs : List View} (h : ∀ v ∈ vs, v.Fits) : ∃ plan, viewCopyPlan vs = .ok plan := by
  obtain ⟨ms, hms⟩ := measureAll_of_fits h 0
  exact ⟨_, by rw [viewCopyPlan, hms]⟩

end Vx.Remote
