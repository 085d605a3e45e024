import Vx.Lib.AddressSpace
import Vx.Pointer.Facts

namespace Vx.Pointer

open List
open Lib.AddressSpace

/-- A program state as the facts read it. A base is an address and a type of elements, and `hasValue` says where an
element of that type has a value. -/
structure State (limit : ℤ) where
  term : Expr → ℤ
  term_zero : term zero = 0
  term_one : term one = 1
  space : Space limit
  base : ℕ → ℤ
  size : ℕ → ℤ
  size_nonneg : ∀ b, 0 ≤ size b
  align : ℕ → ℤ
  align_dvd : ∀ b, align b ∣ size b
  hasValue : ℕ → ℤ → Prop
  pointer : String → ℤ

section

mutual

def Exact.value (term : Expr → ℤ) : Exact → ℤ
  | .term e => term e
  | .sum terms => Exact.total term terms
  | _ => 0

def Exact.total (term : Expr → ℤ) : List Exact → ℤ
  | [] => 0
  | t :: ts => t.value term + Exact.total term ts

end

mutual

def Exact.Holds (term : Expr → ℤ) : Exact → Prop
  | .le a b => a.value term ≤ b.value term
  | .and goals => Exact.AllHold term goals
  | .or goals => Exact.OneHolds term goals
  | _ => False

def Exact.AllHold (term : Expr → ℤ) : List Exact → Prop
  | [] => True
  | g :: gs => g.Holds term ∧ Exact.AllHold term gs

def Exact.OneHolds (term : Expr → ℤ) : List Exact → Prop
  | [] => False
  | g :: gs => g.Holds term ∨ Exact.OneHolds term gs

end

variable {term : Expr → ℤ}

theorem oneHolds_iff (goals : List Exact) : Exact.OneHolds term goals ↔ ∃ g ∈ goals, g.Holds term := by
  induction goals with
  | nil => simp [Exact.OneHolds]
  | cons g gs ih => rw [Exact.OneHolds, ih, exists_mem_cons_iff]

variable {limit : ℤ}

namespace State

def total (s : State limit) (terms : List Expr) : ℤ := (terms.map s.term).sum

def addressAt (s : State limit) (b : ℕ) (i : ℤ) : ℤ := addressOf limit (s.base b) (s.size b) i

def address (s : State limit) (v : PointerValue) : ℤ := s.addressAt v.base (s.total v.offset)

def Row (s : State limit) (kind : Kind) (b : ℕ) (p n : ℤ) : Prop :=
  match kind with
  | .valid => s.space.Valid (s.align b) (s.size b) p n
  | .init => 0 ≤ n ∧ ∀ k, 0 ≤ k → k < n → s.hasValue b ((p + k * s.size b) % limit)

def Overlaps (s : State limit) (b b' : ℕ) (p q n : ℤ) : Prop :=
  0 ≤ n ∧ ¬ Disjoint (bytes limit p (n * s.size b)) (bytes limit q (n * s.size b'))

def RangeHolds (s : State limit) (r : Range) : Prop :=
  s.Row r.kind r.base (s.addressAt r.base (s.total r.lo)) (s.total r.hi - s.total r.lo)

def ApartHolds (s : State limit) (a : Apart) : Prop :=
  ¬ s.Overlaps a.first.1 a.second.1 (s.addressAt a.first.1 (s.total a.first.2))
    (s.addressAt a.second.1 (s.total a.second.2)) (s.term a.len)

/-- All that the checker recorded is true in the state: the ranges, what is apart, and the values of the pointers. -/
structure Holds (s : State limit) (facts : PointerFacts) : Prop where
  ranges : ∀ r ∈ facts.ranges, s.RangeHolds r
  aparts : ∀ a ∈ facts.aparts, s.ApartHolds a
  entries : ∀ name v, facts.entries name = some v → s.pointer name = s.address v

def ClauseHolds (s : State limit) (clause : Clause) (m : Expr) : Prop :=
  match clause with
  | .valid v => s.Row .valid v.base (s.address v) (s.term m)
  | .initialized v => s.Row .init v.base (s.address v) (s.term m)
  | .notOverlaps a b => ¬ s.Overlaps a.base b.base (s.address a) (s.address b) (s.term m)

variable {s : State limit} {b : ℕ} {lo : ℤ}

theorem row_init_iff {n : ℤ} :
    s.Row .init b (s.addressAt b lo) n ↔ 0 ≤ n ∧ ∀ i, lo ≤ i → i < lo + n → s.hasValue b (s.addressAt b i) := by
  refine and_congr_right fun _ => ⟨fun h i hlo hi => ?_, fun h k hk hkn => ?_⟩
  · have hvalue := h (i - lo) (by omega) (by omega)
    rw [addressAt, ← addressOf_add, show lo + (i - lo) = i by omega] at hvalue
    exact hvalue
  · rw [addressAt, ← addressOf_add]
    exact h (lo + k) (by omega) (by omega)

variable {hi : ℤ}

theorem Row.sub {kind : Kind} {i n : ℤ} (h : s.Row kind b (s.addressAt b lo) (hi - lo)) (hi₀ : lo ≤ i)
    (hn : 0 ≤ n) (hi₁ : i + n ≤ hi) : s.Row kind b (s.addressAt b i) n := by
  cases kind with
  | valid =>
    have hsub := Space.Valid.sub h (s.size_nonneg b) (s.align_dvd b) (show 0 ≤ i - lo by omega) hn (by omega)
    rw [show lo + (i - lo) = i by omega] at hsub
    exact hsub
  | init =>
    rw [row_init_iff] at h ⊢
    exact ⟨hn, fun j hj hjn => h.2 j (by omega) (by omega)⟩

theorem row_init_union {lo' hi' : ℤ} (h : s.Row .init b (s.addressAt b lo) (hi - lo))
    (h' : s.Row .init b (s.addressAt b lo') (hi' - lo')) (hlo : lo ≤ lo') (htouch : lo' ≤ hi) :
    s.Row .init b (s.addressAt b lo) (hi' - lo) := by
  rw [row_init_iff] at h h' ⊢
  refine ⟨by omega, fun i hi₀ hi₁ => ?_⟩
  by_cases hbefore : i < hi
  · exact h.2 i hi₀ (by omega)
  · exact h'.2 i (by omega) (by omega)

theorem row_valid_union {lo' hi' : ℤ} (h : s.Row .valid b (s.addressAt b lo) (hi - lo))
    (h' : s.Row .valid b (s.addressAt b lo') (hi' - lo')) (hlo : lo ≤ lo') (hshare : lo' + 1 ≤ hi) :
    s.Row .valid b (s.addressAt b lo) (hi' - lo) := by
  rcases (show 0 ≤ hi' - lo' from h'.nonneg).eq_or_lt with hempty | hpos
  · exact h.sub (le_refl lo) (by omega) (by omega)
  have hshift : s.addressAt b lo' = addressOf limit (s.base b) (s.size b) (lo + (lo' - lo)) := by
    rw [show lo + (lo' - lo) = lo' by omega]
    rfl
  have h'' : s.space.Valid (s.align b) (s.size b) (s.addressAt b lo') (hi' - lo') := h'
  rw [hshift] at h''
  have hjoin := Space.Valid.join h h'' (s.size_nonneg b) (by omega) (by omega) hpos
  rw [show lo' - lo + (hi' - lo') = hi' - lo by omega] at hjoin
  exact hjoin

end State

end

variable {limit : ℤ} {s : State limit}

theorem total_terms (terms : List Expr) : Exact.total s.term (terms.map .term) = s.total terms := by
  induction terms with
  | nil => rfl
  | cons e es ih =>
    rw [map_cons, Exact.total, ih]
    rfl

@[simp] theorem sum_nil_value (terms : List Expr) : (sum terms []).value s.term = s.total terms := by
  rw [sum, append_nil]
  exact total_terms terms

@[simp] theorem sum_one_value (terms : List Expr) (e : Expr) :
    (sum terms [e]).value s.term = s.total terms + s.term e := by
  rw [sum, Exact.value, total_terms, State.total, map_append, sum_append]
  simp [State.total]

theorem within_holds_iff (m : Expr) (r : Range) (v : PointerValue) : (within m r v).Holds s.term ↔
      s.total r.lo ≤ s.total v.offset ∧ s.total v.offset + s.term m ≤ s.total r.hi := by
  simp [within, Exact.Holds, Exact.AllHold]

theorem window_holds_iff (m len : Expr) (lo : List Expr) (v : PointerValue) : (window m len lo v).Holds s.term ↔
      s.total lo ≤ s.total v.offset ∧ s.total v.offset + s.term m ≤ s.total lo + s.term len := by
  simp [window, Exact.Holds, Exact.AllHold]

variable {m : Expr} {v : PointerValue}

theorem row_of_within {r : Range} (hr : s.RangeHolds r) (hbase : r.base = v.base)
    (hm : 0 ≤ s.term m) (h : (within m r v).Holds s.term) : s.Row r.kind v.base (s.address v) (s.term m) := by
  rw [within_holds_iff] at h
  rw [State.RangeHolds, hbase] at hr
  exact hr.sub h.1 hm h.2

theorem row_of_twoRanges {a b : Range} (ha : s.RangeHolds a) (hb : s.RangeHolds b) {kind : Kind} (hka : a.kind = kind) (hkb : b.kind = kind) (hba : a.base = v.base) (hbb : b.base = v.base)
    (hm : 0 ≤ s.term m) (h : (twoRanges m v a b).Holds s.term) : s.Row kind v.base (s.address v) (s.term m) := by
  rw [State.RangeHolds, hka, hba] at ha
  rw [State.RangeHolds, hkb, hbb] at hb
  cases kind with
  | init =>
    simp only [twoRanges, hka, Exact.Holds, Exact.AllHold, sum_nil_value, sum_one_value, and_true] at h
    obtain ⟨hstart, hlo, htouch, hend⟩ := h
    exact (State.row_init_union ha hb hlo htouch).sub hstart hm hend
  | valid =>
    simp only [twoRanges, hka, Exact.Holds, Exact.AllHold, sum_nil_value, sum_one_value, s.term_one, and_true] at h
    obtain ⟨hstart, hlo, hshare, hend⟩ := h
    exact (State.row_valid_union ha hb hlo hshare).sub hstart hm hend

theorem row_of_rowGoal {ranges : List Range} (hranges : ∀ r ∈ ranges, s.RangeHolds r) {kind : Kind} (h : (rowGoal ranges kind v m).Holds s.term) :
    s.Row kind v.base (s.address v) (s.term m) := by
  simp only [rowGoal, Exact.Holds, Exact.AllHold, Exact.value, s.term_zero, oneHolds_iff, and_true] at h
  obtain ⟨hm, g, hg, hholds⟩ := h
  have hmine : ∀ r ∈ ranges.filter fun r => r.kind = kind && r.base = v.base,
      s.RangeHolds r ∧ r.kind = kind ∧ r.base = v.base := by
    intro r hr
    obtain ⟨hin, hcond⟩ := List.mem_filter.mp hr
    rw [Bool.and_eq_true, decide_eq_true_eq, decide_eq_true_eq] at hcond
    exact ⟨hranges r hin, hcond⟩
  rw [mem_append, mem_append] at hg
  rcases hg with (hg | hg) | hg
  · obtain ⟨r, hr, rfl⟩ := List.mem_map.mp hg
    obtain ⟨hrange, hkind, hbase⟩ := hmine r hr
    rw [← hkind]
    exact row_of_within hrange hbase hm hholds
  · obtain ⟨a, ha, hg⟩ := List.mem_flatMap.mp hg
    obtain ⟨b, hb, rfl⟩ := List.mem_map.mp hg
    obtain ⟨ha, hka, hba⟩ := hmine a ha
    obtain ⟨hb, hkb, hbb⟩ := hmine b (mem_of_mem_filter hb)
    exact row_of_twoRanges ha hb hka hkb hba hbb hm hholds
  · split_ifs at hg with hkind
    · obtain rfl := List.mem_singleton.mp hg
      subst hkind
      simp only [Exact.Holds, Exact.value, s.term_zero] at hholds
      exact ⟨hm, fun k hk hkm => absurd hk (by omega)⟩
    · cases hg

variable {b b' : ℕ} {n : ℤ}

theorem not_overlaps_of_nonpos {p q : ℤ} (hn : n ≤ 0) : ¬ s.Overlaps b b' p q n := by
  rintro ⟨hnonneg, hshare⟩
  obtain rfl : n = 0 := by omega
  apply hshare
  rw [Set.disjoint_left]
  rintro x ⟨k, hk, hlt, _⟩ _
  omega

theorem Overlaps.symm {p q : ℤ} (h : s.Overlaps b b' p q n) : s.Overlaps b' b q p n := ⟨h.1, fun hd => h.2 hd.symm⟩

theorem not_overlaps_sub {lo lo' i i' len : ℤ}
    (h : ¬ s.Overlaps b b' (s.addressAt b lo) (s.addressAt b' lo') len) (hi : lo ≤ i) (hin : i + n ≤ lo + len)
    (hi' : lo' ≤ i') (hin' : i' + n ≤ lo' + len) : ¬ s.Overlaps b b' (s.addressAt b i) (s.addressAt b' i') n := by
  rintro ⟨hn, hshare⟩
  have hsub : ∀ b lo i, lo ≤ i → i + n ≤ lo + len →
      bytes limit (s.addressAt b i) (n * s.size b) ⊆ bytes limit (s.addressAt b lo) (len * s.size b) := by
    intro b lo i hi hin
    rw [show i = lo + (i - lo) by omega]
    exact bytes_sub (s.size_nonneg b) (by omega) (by omega)
  exact h ⟨by omega, fun hd => hshare (hd.mono (hsub b lo i hi hin) (hsub b' lo' i' hi' hin'))⟩

theorem not_overlaps_of_before {lo hi i i' : ℤ}
    (h : s.Row .valid b (s.addressAt b lo) (hi - lo)) (hi₀ : lo ≤ i) (hbefore : i + n ≤ i') (hend : i' + n ≤ hi) :
    ¬ s.Overlaps b b (s.addressAt b i) (s.addressAt b i') n := by
  rcases le_or_gt n 0 with hn | hn
  · exact not_overlaps_of_nonpos hn
  rintro ⟨_, hshare⟩
  apply hshare
  have hholds := h.holds (by omega)
  have hdisjoint := hholds.disjoint_bytes (s.size_nonneg b) (show 0 ≤ i - lo by omega) hn.le
    (show i - lo + n ≤ i' - lo by omega) (by omega)
  rw [show lo + (i - lo) = i by omega, show lo + (i' - lo) = i' by omega] at hdisjoint
  exact hdisjoint

theorem not_overlaps_of_oneRange {ranges : List Range} (hranges : ∀ r ∈ ranges, s.RangeHolds r)
    {a b : PointerValue} {g : Exact} (hg : g ∈ oneRange ranges a b m) (h : g.Holds s.term) :
    ¬ s.Overlaps a.base b.base (s.address a) (s.address b) (s.term m) := by
  rw [oneRange] at hg
  split_ifs at hg with hbase
  · obtain ⟨r, hr, rfl⟩ := List.mem_map.mp hg
    obtain ⟨hin, hcond⟩ := List.mem_filter.mp hr
    rw [Bool.and_eq_true, decide_eq_true_eq, decide_eq_true_eq] at hcond
    have hrow := hranges r hin
    rw [State.RangeHolds, hcond.1, hcond.2] at hrow
    simp only [Exact.Holds, Exact.AllHold, Exact.OneHolds, within_holds_iff, sum_nil_value, sum_one_value, or_false,
      and_true] at h
    obtain ⟨⟨ha, ha'⟩, ⟨hb, hb'⟩, hside⟩ := h
    rw [State.address, State.address, ← hbase]
    rcases hside with hside | hside
    · exact not_overlaps_of_before hrow ha hside hb'
    · exact fun hshare => not_overlaps_of_before hrow hb hside ha' (Overlaps.symm hshare)
  · cases hg

theorem not_overlaps_of_apart {apart : Apart} (hapart : s.ApartHolds apart) {a b : PointerValue}
    {g : Exact} (hg : g ∈ apartGoals m a b apart) (h : g.Holds s.term) :
    ¬ s.Overlaps a.base b.base (s.address a) (s.address b) (s.term m) := by
  -- The clause for the two pointers in the order of the fact.
  have hordered : ∀ x y : PointerValue, g ∈ (if apart.first.1 = x.base && apart.second.1 = y.base then
      [Exact.and [window m apart.len apart.first.2 x, window m apart.len apart.second.2 y]] else []) →
      ¬ s.Overlaps x.base y.base (s.address x) (s.address y) (s.term m) := by
    intro x y hg
    split_ifs at hg with hbases
    · obtain rfl := List.mem_singleton.mp hg
      rw [Bool.and_eq_true, decide_eq_true_eq, decide_eq_true_eq] at hbases
      simp only [Exact.Holds, Exact.AllHold, window_holds_iff, and_true] at h
      rw [State.ApartHolds, hbases.1, hbases.2] at hapart
      exact not_overlaps_sub hapart h.1.1 h.1.2 h.2.1 h.2.2
    · cases hg
  obtain ⟨⟨x, y⟩, hxy, hg⟩ := List.mem_flatMap.mp hg
  have hnot := hordered x y hg
  rcases List.mem_cons.mp hxy with heq | hxy
  · cases heq
    exact hnot
  · obtain heq := List.mem_singleton.mp hxy
    cases heq
    exact fun hshare => hnot (Overlaps.symm hshare)

theorem clauseHolds_of_pointerGoal {facts : PointerFacts} (hfacts : s.Holds facts) {clause : Clause}
    {extra : Option Range} (hextra : ∀ r ∈ extra, s.RangeHolds r)
    (h : (pointerGoal facts clause m extra).Holds s.term) : s.ClauseHolds clause m := by
  have hranges : ∀ r ∈ facts.ranges ++ extra.toList, s.RangeHolds r := by
    intro r hr
    rcases List.mem_append.mp hr with hr | hr
    · exact hfacts.ranges r hr
    · exact hextra r (Option.mem_toList.mp hr)
  cases clause with
  | valid v => exact row_of_rowGoal hranges h
  | initialized v => exact row_of_rowGoal hranges h
  | notOverlaps a b =>
    simp only [pointerGoal, Exact.Holds, oneHolds_iff] at h
    obtain ⟨g, hg, hholds⟩ := h
    rcases List.mem_cons.mp hg with rfl | hg
    · simp only [Exact.Holds, Exact.value, s.term_zero] at hholds
      exact not_overlaps_of_nonpos hholds
    rcases List.mem_append.mp hg with hg | hg
    · exact not_overlaps_of_oneRange hranges hg hholds
    · obtain ⟨apart, hapart, hg⟩ := List.mem_flatMap.mp hg
      exact not_overlaps_of_apart (hfacts.aparts apart hapart) hg hholds

end Vx.Pointer
