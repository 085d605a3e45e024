import Mathlib

namespace Vx.Lib.Grouping

open Function (update update_of_ne update_self)

section

def climb (link : ℕ → ℕ) : ℕ → ℕ → ℕ
  | 0, i => i
  | fuel + 1, i => if link i = i then i else climb link fuel (link i)

def root (link : ℕ → ℕ) (i : ℕ) : ℕ := climb link i i

def Forest (link : ℕ → ℕ) : Prop := ∀ i, link i ≤ i

variable {link : ℕ → ℕ} {i : ℕ} (h : Forest link)
include h

theorem climb_eq {fuel fuel' : ℕ} (hi : i ≤ fuel) (hi' : i ≤ fuel') : climb link fuel i = climb link fuel' i := by
  induction fuel generalizing i fuel' with
  | zero =>
    obtain rfl : i = 0 := by omega
    have hzero : link 0 = 0 := Nat.le_zero.mp (h 0)
    cases fuel' <;> simp [climb, hzero]
  | succ fuel ih =>
    have hle := h i
    by_cases hfix : link i = i
    · cases fuel' <;> simp [climb, hfix]
    · cases fuel' with
      | zero => omega
      | succ fuel' =>
        rw [climb, climb, if_neg hfix, if_neg hfix]
        exact ih (by omega) (by omega)

omit h in
theorem root_of_fixed (hi : link i = i) : root link i = i := by
  unfold root
  cases i <;> simp [climb, hi]

theorem root_of_link (hi : link i ≠ i) : root link i = root link (link i) := by
  have hle := h i
  cases i with
  | zero => omega
  | succ i =>
    rw [root, climb, if_neg hi]
    exact climb_eq h (by omega) le_rfl

theorem root_le (i : ℕ) : root link i ≤ i := by
  induction i using Nat.strong_induction_on with
  | _ i ih =>
    by_cases hi : link i = i
    · rw [root_of_fixed hi]
    · have hle := h i
      rw [root_of_link h hi]
      exact (ih (link i) (by omega)).trans hle

theorem link_root (i : ℕ) : link (root link i) = root link i := by
  induction i using Nat.strong_induction_on with
  | _ i ih =>
    by_cases hi : link i = i
    · rw [root_of_fixed hi, hi]
    · have hle := h i
      rw [root_of_link h hi]
      exact ih (link i) (by omega)

theorem root_root (i : ℕ) : root link (root link i) = root link i := root_of_fixed (link_root h i)

theorem Forest.update {a b : ℕ} (hab : a ≤ b) : Forest (update link b a) := by
  intro i
  by_cases hi : i = b
  · subst hi
    rwa [update_self]
  · rw [update_of_ne hi]
    exact h i

theorem root_update {a b : ℕ} (hab : a < b) (ha : link a = a) (hb : link b = b) (k : ℕ) :
    root (update link b a) k = if root link k = b then a else root link k := by
  have hforest : Forest (update link b a) := h.update hab.le
  have hroota : root (update link b a) a = a := root_of_fixed (by rw [update_of_ne hab.ne, ha])
  induction k using Nat.strong_induction_on with
  | _ k ih =>
    by_cases hk : k = b
    · subst hk
      have hlink : update link k a k = a := update_self ..
      rw [root_of_link hforest (by rw [hlink]; exact hab.ne), hlink, hroota, root_of_fixed hb, if_pos rfl]
    · have hlink : update link b a k = link k := update_of_ne hk ..
      by_cases hfix : link k = k
      · rw [root_of_fixed (hlink.trans hfix), root_of_fixed hfix, if_neg hk]
      · have hle := h k
        rw [root_of_link hforest (by rwa [hlink]), hlink, root_of_link h hfix]
        exact ih (link k) (by omega)

def join (link : ℕ → ℕ) (i j : ℕ) : ℕ → ℕ :=
  let a := root link i
  let b := root link j
  if a < b then update link b a else if b < a then update link a b else link

theorem Forest.join (i j : ℕ) : Forest (join link i j) := by
  simp only [Grouping.join]
  split_ifs with hab hba
  · exact h.update hab.le
  · exact h.update hba.le
  · exact h

theorem root_join (i j k : ℕ) : root (join link i j) k =
      if root link k = root link i ∨ root link k = root link j then min (root link i) (root link j)
      else root link k := by
  have hi := link_root h i
  have hj := link_root h j
  simp only [join]
  split_ifs with hab hk hba hk hk
  · rw [root_update h hab hi hj]
    rcases hk with hk | hk
    · rw [hk, if_neg hab.ne]
      omega
    · rw [hk, if_pos rfl]
      omega
  · rw [root_update h hab hi hj, if_neg fun h => hk (.inr h)]
  · rw [root_update h hba hj hi]
    rcases hk with hk | hk
    · rw [hk, if_pos rfl]
      omega
    · rw [hk, if_neg hba.ne]
      omega
  · rw [root_update h hba hj hi, if_neg fun h => hk (.inl h)]
  · omega
  · rfl

theorem root_join_of_eq (i j : ℕ) {k l : ℕ} (hkl : root link k = root link l) :
    root (join link i j) k = root (join link i j) l := by
  rw [root_join h, root_join h, hkl]

theorem root_join_self (i j : ℕ) : root (join link i j) i = root (join link i j) j := by
  rw [root_join h, root_join h, if_pos (.inl rfl), if_pos (.inr rfl)]

end

abbrev Interval := ℕ × ℕ

def Meets (a b : Interval) : Prop := a.1 < b.1 + b.2 ∧ b.1 < a.1 + a.2

instance (a b : Interval) : Decidable (Meets a b) := inferInstanceAs (Decidable (_ ∧ _))

def Holds (a : Interval) (x : ℕ) : Prop := a.1 ≤ x ∧ x < a.1 + a.2

variable {a b : Interval}

theorem meets_of_holds {x : ℕ} (ha : Holds a x) (hb : Holds b x) : Meets a b := by
  unfold Holds at ha hb
  constructor <;> omega

structure Grouped (views : ℕ → Option Interval) (link : ℕ → ℕ) : Prop where
  forest : Forest link
  covered : ∀ i j a b x, root link i = root link j → views i = some a → views j = some b → a.1 ≤ x → x < b.1 + b.2 →
    ∃ k c, root link k = root link i ∧ views k = some c ∧ Holds c x
  some_root : ∀ i a, views i = some a → ∃ b, views (root link i) = some b

variable {views : ℕ → Option Interval} {link : ℕ → ℕ}

theorem Grouped.id (views : ℕ → Option Interval) : Grouped views fun i => i where
  forest i := le_rfl
  covered i j a b x hij hi hj hle hlt := by
    rw [root_of_fixed rfl, root_of_fixed rfl] at hij
    subst hij
    rw [hi] at hj
    cases hj
    exact ⟨i, a, rfl, hi, hle, hlt⟩
  some_root i a hi := ⟨a, by rwa [root_of_fixed rfl]⟩

variable {i j : ℕ}

theorem Grouped.covered_across (h : Grouped views link) (hi : views i = some a)
    (hj : views j = some b) (hmeets : Meets a b) {k l : ℕ} {c d : Interval} {x : ℕ} (hk : root link k = root link i)
    (hl : root link l = root link j) (hc : views k = some c) (hd : views l = some d) (hle : c.1 ≤ x)
    (hlt : x < d.1 + d.2) :
    ∃ m e, (root link m = root link i ∨ root link m = root link j) ∧ views m = some e ∧ Holds e x := by
  by_cases hx : x < a.1 + a.2
  · obtain ⟨m, e, hm, he, hin⟩ := h.covered k i c a x hk hc hi hle hx
    exact ⟨m, e, .inl (hm.trans hk), he, hin⟩
  · have hstart := hmeets.2
    obtain ⟨m, e, hm, he, hin⟩ := h.covered j l b d x hl.symm hj hd (by omega) hlt
    exact ⟨m, e, .inr hm, he, hin⟩

theorem Grouped.join (h : Grouped views link) (hi : views i = some a)
    (hj : views j = some b) (hmeets : Meets a b) : Grouped views (join link i j) where
  forest := h.forest.join i j
  covered k l c d x hkl hc hd hle hlt := by
    by_cases hk : root link k = root link i ∨ root link k = root link j
    · -- A joined group: its intervals are those of `i` and those of `j`.
      have hroot : ∀ m, root link m = root link i ∨ root link m = root link j →
          root (Grouping.join link i j) m = root (Grouping.join link i j) k := by
        intro m hm
        rw [root_join h.forest, root_join h.forest, if_pos hm, if_pos hk]
      have hl : root link l = root link i ∨ root link l = root link j := by
        by_contra hl
        rw [root_join h.forest, root_join h.forest, if_pos hk, if_neg hl] at hkl
        rcases min_choice (root link i) (root link j) with hmin | hmin
        · exact hl (.inl (by rw [← hkl, hmin]))
        · exact hl (.inr (by rw [← hkl, hmin]))
      have hswap : Meets b a := ⟨hmeets.2, hmeets.1⟩
      rcases hk with hk | hk <;> rcases hl with hl | hl
      · obtain ⟨m, e, hm, he, hin⟩ := h.covered k l c d x (hk.trans hl.symm) hc hd hle hlt
        exact ⟨m, e, hroot m (.inl (hm.trans hk)), he, hin⟩
      · obtain ⟨m, e, hm, he, hin⟩ := h.covered_across hi hj hmeets hk hl hc hd hle hlt
        exact ⟨m, e, hroot m hm, he, hin⟩
      · obtain ⟨m, e, hm, he, hin⟩ := h.covered_across hj hi hswap hk hl hc hd hle hlt
        exact ⟨m, e, hroot m hm.symm, he, hin⟩
      · obtain ⟨m, e, hm, he, hin⟩ := h.covered k l c d x (hk.trans hl.symm) hc hd hle hlt
        exact ⟨m, e, hroot m (.inr (hm.trans hk)), he, hin⟩
    · have hl : ¬ (root link l = root link i ∨ root link l = root link j) := by
        intro hl
        rw [root_join h.forest, root_join h.forest, if_neg hk, if_pos hl] at hkl
        rcases min_choice (root link i) (root link j) with hmin | hmin
        · exact hk (.inl (by rw [hkl, hmin]))
        · exact hk (.inr (by rw [hkl, hmin]))
      rw [root_join h.forest, root_join h.forest, if_neg hk, if_neg hl] at hkl
      obtain ⟨m, e, hm, he, hin⟩ := h.covered k l c d x hkl hc hd hle hlt
      exact ⟨m, e, root_join_of_eq h.forest i j hm, he, hin⟩
  some_root k c hc := by
    rw [root_join h.forest]
    split_ifs with hk
    · rcases min_choice (root link i) (root link j) with hmin | hmin
      · rw [hmin]
        exact h.some_root i a hi
      · rw [hmin]
        exact h.some_root j b hj
    · exact h.some_root k c hc

def Overlaps (views : ℕ → Option Interval) (i j : ℕ) : Prop := ∃ a b, views i = some a ∧ views j = some b ∧ Meets a b

def Connected (views : ℕ → Option Interval) (link : ℕ → ℕ) : Prop :=
  ∀ k l, root link k = root link l → Relation.ReflTransGen (Overlaps views) k l

theorem chain_symm (h : Relation.ReflTransGen (Overlaps views) i j) : Relation.ReflTransGen (Overlaps views) j i := by
  induction h with
  | refl => exact .refl
  | tail _ hstep ih =>
    obtain ⟨a, b, ha, hb, hab⟩ := hstep
    exact ih.head ⟨b, a, hb, ha, hab.2, hab.1⟩

theorem Connected.id (views : ℕ → Option Interval) : Connected views fun i => i := by
  intro k l hkl
  rw [root_of_fixed rfl, root_of_fixed rfl] at hkl
  exact hkl ▸ .refl

theorem Connected.join (h : Connected views link) (hforest : Forest link) (hij : Overlaps views i j) :
    Connected views (join link i j) := by
  intro k l hkl
  have hchain : Relation.ReflTransGen (Overlaps views) i j := .single hij
  have hroot : ∀ m, root link m = root link i ∨ root link m = root link j →
      Relation.ReflTransGen (Overlaps views) m i := by
    rintro m (hm | hm)
    · exact h m i hm
    · exact (h m j hm).trans (chain_symm hchain)
  rw [root_join hforest, root_join hforest] at hkl
  have hmin := min_choice (root link i) (root link j)
  split_ifs at hkl with hk hl hl
  · exact (hroot k hk).trans (chain_symm (hroot l hl))
  · exact absurd (hmin.imp (fun hmin => by rw [← hkl, hmin]) fun hmin => by rw [← hkl, hmin]) hl
  · exact absurd (hmin.imp (fun hmin => by rw [hkl, hmin]) fun hmin => by rw [hkl, hmin]) hk
  · exact h k l hkl

end Vx.Lib.Grouping
