import Vx.Remote.ViewCopy

namespace Vx.Remote

open List Option
open Function (update update_of_ne update_self)
open Lib.Grouping

section
variable {views : ℕ → Option Interval} {link : ℕ → ℕ}

def Coarser (link link' : ℕ → ℕ) : Prop := ∀ k l, root link k = root link l → root link' k = root link' l

def Joined (views : ℕ → Option Interval) (link : ℕ → ℕ) (i j : ℕ) : Prop :=
  ∀ a b, views i = some a → views j = some b → Meets a b → root link i = root link j

theorem Joined.coarser {link' : ℕ → ℕ} {i j : ℕ} (h : Joined views link i j) (hc : Coarser link link') :
    Joined views link' i j :=
  fun a b ha hb hab => hc i j (h a b ha hb hab)

theorem joinViews_grouped (h : Grouped views link) (i j : ℕ) :
    Grouped views (joinViews views link i j) ∧ Coarser link (joinViews views link i j) ∧
      Joined views (joinViews views link i j) i j := by
  unfold joinViews
  split
  next a b ha hb =>
    split
    next hapart =>
      refine ⟨h, fun k l hkl => hkl, fun a' b' ha' hb' hab => ?_⟩
      obtain rfl : a = a' := Option.some.inj (ha.symm.trans ha')
      obtain rfl : b = b' := Option.some.inj (hb.symm.trans hb')
      unfold Meets at hab
      omega
    next hmeets =>
      have hab : Meets a b := by
        unfold Meets
        omega
      exact ⟨h.join ha hb hab, fun k l hkl => root_join_of_eq h.forest i j hkl, fun _ _ _ _ _ => root_join_self h.forest i j⟩
  next hnone =>
    exact ⟨h, fun k l hkl => hkl, fun a b ha hb _ => (hnone a b ha hb).elim⟩

theorem joinRow_grouped (h : Grouped views link) (i m : ℕ) :
    Grouped views ((List.range m).foldl (fun link j => joinViews views link i j) link) ∧
      Coarser link ((List.range m).foldl (fun link j => joinViews views link i j) link) ∧
      ∀ j < m, Joined views ((List.range m).foldl (fun link j => joinViews views link i j) link) i j := by
  induction m with
  | zero => exact ⟨h, fun k l hkl => hkl, by simp⟩
  | succ m ih =>
    obtain ⟨hgrouped, hcoarser, hjoined⟩ := ih
    obtain ⟨hgrouped', hcoarser', hjoined'⟩ := joinViews_grouped hgrouped i m
    rw [range_succ, foldl_append, foldl_cons, foldl_nil]
    refine ⟨hgrouped', fun k l hkl => hcoarser' k l (hcoarser k l hkl), fun j hj => ?_⟩
    rcases Nat.lt_succ_iff_lt_or_eq.mp hj with hj | rfl
    · exact (hjoined j hj).coarser hcoarser'
    · exact hjoined'

theorem groups_grouped (views : ℕ → Option Interval) (n : ℕ) :
    Grouped views (groups views n) ∧ ∀ i < n, ∀ j < i, Joined views (groups views n) i j := by
  unfold groups
  induction n with
  | zero => exact ⟨Grouped.id views, by simp⟩
  | succ n ih =>
    obtain ⟨hgrouped, hjoined⟩ := ih
    obtain ⟨hgrouped', hcoarser, hjoined'⟩ := joinRow_grouped hgrouped n n
    rw [range_succ, foldl_append, foldl_cons, foldl_nil]
    refine ⟨hgrouped', fun i hi j hj => ?_⟩
    rcases Nat.lt_succ_iff_lt_or_eq.mp hi with hi | rfl
    · exact (hjoined i hi j hj).coarser hcoarser
    · exact hjoined' j hj

theorem root_eq_of_meets {n i j : ℕ} {a b : Interval} (hi : i < n) (hj : j < n) (ha : views i = some a)
    (hb : views j = some b) (hab : Meets a b) : root (groups views n) i = root (groups views n) j := by
  have hjoined := (groups_grouped views n).2
  rcases Nat.lt_trichotomy i j with hlt | rfl | hgt
  · exact (hjoined j hj i hlt b a hb ha ⟨hab.2, hab.1⟩).symm
  · rfl
  · exact hjoined i hi j hgt a b ha hb hab

end

variable {views : ℕ → Option Interval} {link : ℕ → ℕ}

structure Spans.Ok (views : ℕ → Option Interval) (link : ℕ → ℕ) (m : ℕ) (given : Spans) : Prop where
  unplaced : ∀ i, given.of i = none ↔ m ≤ i ∨ views i = none
  lt : ∀ i s, given.of i = some s → s < given.num
  same : ∀ i j s t, given.of i = some s → given.of j = some t → (s = t ↔ root link i = root link j)
  inside : ∀ i s a, given.of i = some s → views i = some a →
    (given.spans s).1 ≤ a.1 ∧ a.1 + a.2 ≤ (given.spans s).1 + (given.spans s).2
  first : ∀ s < given.num, ∃ i a, given.of i = some s ∧ views i = some a ∧ (given.spans s).1 = a.1
  final : ∀ s < given.num, ∃ i a, given.of i = some s ∧ views i = some a ∧
    (given.spans s).1 + (given.spans s).2 = a.1 + a.2

theorem widen_bounds (s v : Interval) :
    (widen s v).1 = min v.1 s.1 ∧ (widen s v).1 + (widen s v).2 = max (v.1 + v.2) (s.1 + s.2) := by
  unfold widen
  simp only
  split_ifs <;> omega

variable {given : Spans} {m : ℕ} {s : ℕ} (h : given.Ok views link m)
include h

theorem Spans.Ok.some_of {i : ℕ} (hi : given.of i = some s) : i < m ∧ ∃ a, views i = some a := by
  have hnone := h.unplaced i
  rw [hi] at hnone
  simp only [reduceCtorEq, false_iff, not_or, not_le] at hnone
  exact ⟨hnone.1, ne_none_iff_exists'.mp hnone.2⟩

theorem Spans.Ok.skip (hm : views m = none) : given.Ok views link (m + 1) :=
  { h with
    unplaced := by
      intro i
      rw [h.unplaced]
      constructor
      · rintro (hi | hi)
        · rcases Nat.lt_or_eq_of_le hi with hlt | rfl
          · exact .inl hlt
          · exact .inr hm
        · exact .inr hi
      · rintro (hi | hi)
        · exact .inl (by omega)
        · exact .inr hi }

variable {v : Interval}

theorem unplaced_update (hm : views m = some v) (s i : ℕ) :
    update given.of m (some s) i = none ↔ m + 1 ≤ i ∨ views i = none := by
  by_cases hi : i = m
  · subst hi
    simp [hm]
  · rw [update_of_ne hi, h.unplaced]
    have : m ≤ i ↔ m + 1 ≤ i := by omega
    rw [this]

theorem Spans.Ok.fresh (hforest : Forest link) (hm : views m = some v) (hroot : root link m = m) :
    Spans.Ok views link (m + 1)
      { spans := update given.spans given.num v, num := given.num + 1, of := update given.of m (some given.num) } := by
  have hold : ∀ i s, i ≠ m → given.of i = some s → s ≠ given.num ∧ root link i ≠ m := by
    intro i s hi hs
    have hlt := h.lt i s hs
    have him := (h.some_of hs).1
    have hle := root_le hforest i
    exact ⟨by omega, by omega⟩
  have hcases : ∀ i s, update given.of m (some given.num) i = some s →
      i = m ∧ s = given.num ∨ i ≠ m ∧ given.of i = some s := by
    intro i s hs
    by_cases hi : i = m
    · subst hi
      rw [update_self, Option.some.injEq] at hs
      exact .inl ⟨rfl, hs.symm⟩
    · rw [update_of_ne hi] at hs
      exact .inr ⟨hi, hs⟩
  have hkeep : ∀ i s, given.of i = some s → update given.of m (some given.num) i = some s := by
    intro i s hs
    have him := (h.some_of hs).1
    rw [update_of_ne (by omega), hs]
  refine ⟨unplaced_update h hm given.num, ?_, ?_, ?_, ?_, ?_⟩
  · intro i s hs
    rcases hcases i s hs with ⟨-, rfl⟩ | ⟨-, hs'⟩
    · exact Nat.lt_succ_self _
    · exact (h.lt i s hs').trans (Nat.lt_succ_self _)
  · intro i j s t hs ht
    rcases hcases i s hs with ⟨rfl, rfl⟩ | ⟨hi, hs'⟩ <;> rcases hcases j t ht with ⟨rfl, rfl⟩ | ⟨hj, ht'⟩
    · simp
    · have := hold j t hj ht'
      rw [hroot]
      exact ⟨fun heq => absurd heq.symm this.1, fun heq => absurd heq.symm this.2⟩
    · have := hold i s hi hs'
      rw [hroot]
      exact ⟨fun heq => absurd heq this.1, fun heq => absurd heq this.2⟩
    · exact h.same i j s t hs' ht'
  · intro i s a hs ha
    rcases hcases i s hs with ⟨rfl, rfl⟩ | ⟨hi, hs'⟩
    · obtain rfl : v = a := Option.some.inj (hm.symm.trans ha)
      simp
    · simp only [update_of_ne (hold i s hi hs').1]
      exact h.inside i s a hs' ha
  · intro s hs
    rcases Nat.lt_succ_iff_lt_or_eq.mp hs with hlt | rfl
    · obtain ⟨i, a, hi, ha, heq⟩ := h.first s hlt
      exact ⟨i, a, hkeep i s hi, ha, by simpa [hlt.ne] using heq⟩
    · exact ⟨m, v, by simp, hm, by simp⟩
  · intro s hs
    rcases Nat.lt_succ_iff_lt_or_eq.mp hs with hlt | rfl
    · obtain ⟨i, a, hi, ha, heq⟩ := h.final s hlt
      exact ⟨i, a, hkeep i s hi, ha, by simpa [hlt.ne] using heq⟩
    · exact ⟨m, v, by simp, hm, by simp⟩

theorem Spans.Ok.widened (hgrouped : Grouped views link) (hm : views m = some v)
    (hroot : root link m ≠ m) (hs : given.of (root link m) = some s) : Spans.Ok views link (m + 1)
      { given with spans := update given.spans s (widen (given.spans s) v), of := update given.of m (some s) } := by
  have hlt := h.lt _ s hs
  obtain ⟨hstart, hstop⟩ := widen_bounds (given.spans s) v
  have hcases : ∀ i t, update given.of m (some s) i = some t → i = m ∧ t = s ∨ i ≠ m ∧ given.of i = some t := by
    intro i t ht
    by_cases hi : i = m
    · subst hi
      rw [update_self, Option.some.injEq] at ht
      exact .inl ⟨rfl, ht.symm⟩
    · rw [update_of_ne hi] at ht
      exact .inr ⟨hi, ht⟩
  have hkeep : ∀ i t, given.of i = some t → update given.of m (some s) i = some t := by
    intro i t ht
    have him := (h.some_of ht).1
    rw [update_of_ne (by omega), ht]
  have hself : ∀ i t, given.of i = some t → (t = s ↔ root link i = root link m) := by
    intro i t ht
    rw [h.same i _ t s ht hs, root_root hgrouped.forest]
  refine ⟨unplaced_update h hm s, ?_, ?_, ?_, ?_, ?_⟩
  · intro i t ht
    rcases hcases i t ht with ⟨-, rfl⟩ | ⟨-, ht⟩
    · exact hlt
    · exact h.lt i t ht
  · intro i j t t' ht ht'
    rcases hcases i t ht with ⟨rfl, rfl⟩ | ⟨hi, hold⟩ <;> rcases hcases j t' ht' with ⟨rfl, rfl⟩ | ⟨hj, hold'⟩
    · simp
    · rw [eq_comm, hself j t' hold', eq_comm]
    · exact hself i t hold
    · exact h.same i j t t' hold hold'
  · intro i t a ht ha
    rcases hcases i t ht with ⟨rfl, rfl⟩ | ⟨hi, hold⟩
    · obtain rfl : v = a := Option.some.inj (hm.symm.trans ha)
      simp only [update_self]
      omega
    · by_cases hts : t = s
      · subst hts
        have := h.inside i t a hold ha
        simp only [update_self]
        omega
      · simp only [update_of_ne hts]
        exact h.inside i t a hold ha
  · intro t ht
    by_cases hts : t = s
    · subst hts
      simp only [update_self, hstart]
      rcases Nat.le_total v.1 (given.spans t).1 with hle | hle
      · exact ⟨m, v, by simp, hm, by omega⟩
      · obtain ⟨i, a, hi, ha, heq⟩ := h.first t ht
        exact ⟨i, a, hkeep i t hi, ha, by omega⟩
    · obtain ⟨i, a, hi, ha, heq⟩ := h.first t ht
      exact ⟨i, a, hkeep i t hi, ha, by simpa [hts] using heq⟩
  · intro t ht
    by_cases hts : t = s
    · subst hts
      simp only [update_self, hstop]
      rcases Nat.le_total (v.1 + v.2) ((given.spans t).1 + (given.spans t).2) with hle | hle
      · obtain ⟨i, a, hi, ha, heq⟩ := h.final t ht
        exact ⟨i, a, hkeep i t hi, ha, by omega⟩
      · exact ⟨m, v, by simp, hm, by omega⟩
    · obtain ⟨i, a, hi, ha, heq⟩ := h.final t ht
      exact ⟨i, a, hkeep i t hi, ha, by simpa [hts] using heq⟩

theorem giveSpan_ok (hgrouped : Grouped views link) : (giveSpan views link given m).Ok views link (m + 1) := by
  unfold giveSpan
  split
  next hm => exact h.skip hm
  next v hm =>
    split
    next hroot => exact h.fresh hgrouped.forest hm hroot
    next hroot =>
      have hle := root_le hgrouped.forest m
      obtain ⟨b, hb⟩ := hgrouped.some_root m v hm
      have hsome : given.of (root link m) ≠ none := by
        rw [ne_eq, h.unplaced, hb]
        simp only [reduceCtorEq, or_false, not_le]
        omega
      obtain ⟨s, hs⟩ := ne_none_iff_exists'.mp hsome
      simp only [hs, getD_some]
      exact h.widened hgrouped hm hroot hs

omit h

theorem giveSpans_ok (views : ℕ → Option Interval) (n : ℕ) : (giveSpans views n).Ok views (groups views n) n := by
  have hgrouped := (groups_grouped views n).1
  unfold giveSpans
  generalize groups views n = link at hgrouped
  induction n with
  | zero =>
    exact ⟨by simp, by simp, by simp, by simp, by simp, by simp⟩
  | succ n ih =>
    rw [range_succ, foldl_append, foldl_cons, foldl_nil]
    exact giveSpan_ok ih hgrouped

theorem giveSpans_disjoint {n t x : ℕ} (hbeyond : ∀ i, n ≤ i → views i = none) (hs : s < (giveSpans views n).num)
    (ht : t < (giveSpans views n).num) (hx : Holds ((giveSpans views n).spans s) x)
    (hx' : Holds ((giveSpans views n).spans t) x) : s = t := by
  have hok := giveSpans_ok views n
  have hgrouped := (groups_grouped views n).1
  have hmember : ∀ s < (giveSpans views n).num, Holds ((giveSpans views n).spans s) x →
      ∃ k c, (giveSpans views n).of k = some s ∧ views k = some c ∧ Holds c x := by
    intro s hs hx
    obtain ⟨i, a, hi, ha, hfirst⟩ := hok.first s hs
    obtain ⟨j, b, hj, hb, hfinal⟩ := hok.final s hs
    have hij := (hok.same i j s s hi hj).mp rfl
    obtain ⟨k, c, hk, hc, hin⟩ := hgrouped.covered i j a b x hij ha hb (hfirst ▸ hx.1) (hfinal ▸ hx.2)
    have hkn : k < n := by
      by_contra hge
      rw [hbeyond k (by omega)] at hc
      cases hc
    have hsome : (giveSpans views n).of k ≠ none := by
      rw [ne_eq, hok.unplaced, hc]
      simp only [reduceCtorEq, or_false, not_le]
      exact hkn
    obtain ⟨r, hr⟩ := ne_none_iff_exists'.mp hsome
    obtain rfl : r = s := (hok.same k i r s hr hi).mpr hk
    exact ⟨k, c, hr, hc, hin⟩
  obtain ⟨k, c, hk, hc, hin⟩ := hmember s hs hx
  obtain ⟨l, d, hl, hd, hin'⟩ := hmember t ht hx'
  have hkl := root_eq_of_meets (hok.some_of hk).1 (hok.some_of hl).1 hc hd (meets_of_holds hin hin')
  exact (hok.same k l s t hk hl).mpr hkl

end Vx.Remote
