import Mathlib

namespace Vx.Lib.Numbered

open List

variable {α : Type} {number : α → ℕ}

structure Agree (number : α → ℕ) (count : ℕ) (lists : List (List α)) : Prop where
  le : ∀ l ∈ lists, ∀ x ∈ l, number x ≤ count
  eq : ∀ l ∈ lists, ∀ l' ∈ lists, ∀ x ∈ l, ∀ y ∈ l', number x = number y → x = y

structure Grows (number : α → ℕ) (count : ℕ) (l : List α) (count' : ℕ) (l' : List α) : Prop where
  le : count ≤ count'
  old_or_new : ∀ x ∈ l', x ∈ l ∨ count < number x ∧ number x ≤ count'
  eq_of_new : ∀ x ∈ l', ∀ y ∈ l', count < number x → number x = number y → x = y

variable {count count' : ℕ} {l l' : List α}

theorem Grows.of_subset (hle : ∀ x ∈ l, number x ≤ count) (hcount : count ≤ count')
    (h : l' ⊆ l) : Grows number count l count' l' :=
  ⟨hcount, fun _ hx => .inl (h hx), fun x hx _ _ hnew _ => absurd (hle x (h hx)) (by omega)⟩

theorem Grows.of_one (hle : ∀ x ∈ l, number x ≤ count) {item : α}
    (hnumber : number item = count + 1) (h : ∀ x ∈ l', x ∈ l ∨ x = item) : Grows number count l (count + 1) l' := by
  have hitem : ∀ x ∈ l', count < number x → x = item :=
    fun x hx hnew => (h x hx).resolve_left fun hold => absurd (hle x hold) (by omega)
  refine ⟨by omega, fun x hx => (h x hx).imp id ?_, fun x hx y hy hnew heq => ?_⟩
  · rintro rfl
    omega
  · rw [hitem x hx hnew, hitem y hy (by omega)]

theorem Grows.mono {count₀ count₁ : ℕ} {l₁ : List α} (h : Grows number count l count' l')
    (hle : ∀ x ∈ l, number x ≤ count₀) (hcount₀ : count₀ ≤ count) (hcount₁ : count' ≤ count₁) (hsub : l₁ ⊆ l') :
    Grows number count₀ l count₁ l₁ := by
  have hnew : ∀ x ∈ l₁, count₀ < number x → count < number x ∧ number x ≤ count' := by
    intro x hx hlt
    exact (h.old_or_new x (hsub hx)).resolve_left fun hold => absurd (hle x hold) (by omega)
  refine ⟨Nat.le_trans hcount₀ (Nat.le_trans h.le hcount₁), fun x hx => ?_, fun x hx y hy hlt heq => ?_⟩
  · exact (h.old_or_new x (hsub hx)).imp_right fun hn => ⟨by omega, by omega⟩
  · exact h.eq_of_new x (hsub hx) y (hsub hy) (hnew x hx hlt).1 heq

variable {lists : List (List α)}

theorem Agree.cons_of_grows (h : Agree number count (l :: lists)) (hgrows : Grows number count l count' l') :
    Agree number count' (l' :: lists) := by
  have hle : ∀ l₀ ∈ lists, ∀ x ∈ l₀, number x ≤ count := fun l₀ hl₀ => h.le l₀ (mem_cons_of_mem _ hl₀)
  have hother : ∀ x ∈ l', ∀ l₀ ∈ lists, ∀ y ∈ l₀, number x = number y → x = y := by
    intro x hx l₀ hl₀ y hy heq
    rcases hgrows.old_or_new x hx with hold | ⟨hnew, _⟩
    · exact h.eq l mem_cons_self l₀ (mem_cons_of_mem _ hl₀) x hold y hy heq
    · exact absurd (hle l₀ hl₀ y hy) (by omega)
  refine ⟨fun l₀ hl₀ x hx => ?_, fun l₁ hl₁ l₂ hl₂ x hx y hy heq => ?_⟩
  · have hcount := hgrows.le
    rcases List.mem_cons.mp hl₀ with rfl | hl₀
    · rcases hgrows.old_or_new x hx with hold | ⟨_, hx⟩
      · exact Nat.le_trans (h.le l mem_cons_self x hold) hcount
      · exact hx
    · exact Nat.le_trans (hle l₀ hl₀ x hx) hcount
  · rcases List.mem_cons.mp hl₁ with rfl | hin₁ <;> rcases List.mem_cons.mp hl₂ with rfl | hin₂
    · by_cases hnew : count < number x
      · exact hgrows.eq_of_new x hx y hy hnew heq
      · have holdx := (hgrows.old_or_new x hx).resolve_right fun hn => hnew hn.1
        have holdy := (hgrows.old_or_new y hy).resolve_right fun hn => hnew (by omega)
        exact h.eq l mem_cons_self l mem_cons_self x holdx y holdy heq
    · exact hother x hx l₂ hin₂ y hy heq
    · exact (hother y hy l₁ hin₁ x hx heq.symm).symm
    · exact h.eq l₁ (mem_cons_of_mem _ hin₁) l₂ (mem_cons_of_mem _ hin₂) x hx y hy heq

theorem Agree.mono {lists' : List (List α)} (h : Agree number count lists)
    (hsub : ∀ l ∈ lists', ∃ l₀ ∈ lists, l ⊆ l₀) : Agree number count lists' := by
  refine ⟨fun l hl x hx => ?_, fun l hl l' hl' x hx y hy => ?_⟩
  · obtain ⟨l₀, hl₀, hsub⟩ := hsub l hl
    exact h.le l₀ hl₀ x (hsub hx)
  · obtain ⟨l₀, hl₀, hsub₀⟩ := hsub l hl
    obtain ⟨l₁, hl₁, hsub₁⟩ := hsub l' hl'
    exact h.eq l₀ hl₀ l₁ hl₁ x (hsub₀ hx) y (hsub₁ hy)

theorem Agree.cons_map (h : Agree number count (l :: lists))
    {f : α → α} (hnumber : ∀ x, number (f x) = number x) (hfix : ∀ l' ∈ lists, ∀ x ∈ l', f x = x) :
    Agree number count (l.map f :: lists) := by
  have hother : ∀ x ∈ l, ∀ l₀ ∈ lists, ∀ y ∈ l₀, number x = number y → f x = y := by
    intro x hx l₀ hl₀ y hy heq
    rw [h.eq l mem_cons_self l₀ (mem_cons_of_mem _ hl₀) x hx y hy heq]
    exact hfix l₀ hl₀ y hy
  refine ⟨fun l₀ hl₀ x hx => ?_, fun l₁ hl₁ l₂ hl₂ x hx y hy heq => ?_⟩
  · rcases List.mem_cons.mp hl₀ with rfl | hl₀
    · obtain ⟨x', hx', rfl⟩ := List.mem_map.mp hx
      rw [hnumber]
      exact h.le l mem_cons_self x' hx'
    · exact h.le l₀ (mem_cons_of_mem _ hl₀) x hx
  · rcases List.mem_cons.mp hl₁ with rfl | hin₁ <;> rcases List.mem_cons.mp hl₂ with rfl | hin₂
    · obtain ⟨x', hx', rfl⟩ := List.mem_map.mp hx
      obtain ⟨y', hy', rfl⟩ := List.mem_map.mp hy
      rw [hnumber, hnumber] at heq
      rw [h.eq l mem_cons_self l mem_cons_self x' hx' y' hy' heq]
    · obtain ⟨x', hx', rfl⟩ := List.mem_map.mp hx
      rw [hnumber] at heq
      exact hother x' hx' l₂ hin₂ y hy heq
    · obtain ⟨y', hy', rfl⟩ := List.mem_map.mp hy
      rw [hnumber] at heq
      exact (hother y' hy' l₁ hin₁ x hx heq.symm).symm
    · exact h.eq l₁ (mem_cons_of_mem _ hin₁) l₂ (mem_cons_of_mem _ hin₂) x hx y hy heq

def renumber (change : ℕ → α → Option α) : ℕ → List α → List α × ℕ
  | count, [] => ([], count)
  | count, x :: xs =>
    match change (count + 1) x with
    | some x' =>
      let rest := renumber change (count + 1) xs
      (x' :: rest.1, rest.2)
    | none =>
      let rest := renumber change count xs
      (x :: rest.1, rest.2)

variable {change : ℕ → α → Option α}

theorem le_renumber (count : ℕ) (l : List α) : count ≤ (renumber change count l).2 := by
  induction l generalizing count with
  | nil => exact Nat.le_refl count
  | cons x xs ih =>
    rw [renumber]
    cases change (count + 1) x with
    | some x' => exact Nat.le_trans (Nat.le_succ count) (ih (count + 1))
    | none => exact ih count

theorem renumber_old_or_new (hnumber : ∀ n x, ∀ x' ∈ change n x, number x' = n) (count : ℕ) (l : List α) :
    ∀ x ∈ (renumber change count l).1, x ∈ l ∨ count < number x ∧ number x ≤ (renumber change count l).2 := by
  induction l generalizing count with
  | nil => exact fun x hx => by cases hx
  | cons y ys ih =>
    intro x hx
    rw [renumber] at hx ⊢
    cases hchange : change (count + 1) y with
    | some y' =>
      rw [hchange] at hx
      have hle : count + 1 ≤ (renumber change (count + 1) ys).2 := le_renumber (count + 1) ys
      rcases List.mem_cons.mp hx with rfl | hx
      · have hnew := hnumber _ _ _ hchange
        exact .inr ⟨by omega, by dsimp only; omega⟩
      · exact (ih (count + 1) x hx).imp (mem_cons_of_mem _) fun hnew => ⟨by omega, hnew.2⟩
    | none =>
      rw [hchange] at hx
      rcases List.mem_cons.mp hx with rfl | hx
      · exact .inl mem_cons_self
      · exact (ih count x hx).imp (mem_cons_of_mem _) id

theorem renumber_grows (hnumber : ∀ n x, ∀ x' ∈ change n x, number x' = n) {count : ℕ} {l : List α}
    (hle : ∀ x ∈ l, number x ≤ count) :
    Grows number count l (renumber change count l).2 (renumber change count l).1 := by
  refine ⟨le_renumber count l, renumber_old_or_new hnumber count l, ?_⟩
  -- What has a new number is at most one item under it, also when the items before it are those of a smaller count.
  suffices h : ∀ start, start ≤ count → (∀ x ∈ l, number x ≤ start) →
      ∀ x ∈ (renumber change count l).1, ∀ y ∈ (renumber change count l).1, count < number x →
        number x = number y → x = y from h count (Nat.le_refl count) hle
  intro start hstart hle
  induction l generalizing count with
  | nil => exact fun x hx => by cases hx
  | cons z zs ih =>
    have hzs : ∀ x ∈ zs, number x ≤ start := fun x hx => hle x (mem_cons_of_mem _ hx)
    intro x hx y hy hnew heq
    rw [renumber] at hx hy
    cases hchange : change (count + 1) z with
    | some z' =>
      rw [hchange] at hx hy
      have hz' := hnumber _ _ _ hchange
      have hlater : ∀ w ∈ (renumber change (count + 1) zs).1, count < number w → count + 1 < number w := by
        intro w hw hneww
        rcases renumber_old_or_new hnumber (count + 1) zs w hw with hold | hn
        · exact absurd (hzs w hold) (by omega)
        · exact hn.1
      rcases List.mem_cons.mp hx with hxz | hinx <;> rcases List.mem_cons.mp hy with hyz | hiny
      · rw [hxz, hyz]
      · subst hxz
        exact absurd (hlater y hiny (by omega)) (by omega)
      · subst hyz
        exact absurd (hlater x hinx hnew) (by omega)
      · have hstart' : start ≤ count + 1 := by omega
        exact ih (fun w hw => Nat.le_trans (hzs w hw) hstart') hstart' hzs x hinx y hiny (hlater x hinx hnew) heq
    | none =>
      rw [hchange] at hx hy
      have hz := hle z mem_cons_self
      rcases List.mem_cons.mp hx with rfl | hinx
      · omega
      · rcases List.mem_cons.mp hy with rfl | hiny
        · omega
        · exact ih (fun w hw => Nat.le_trans (hzs w hw) hstart) hstart hzs x hinx y hiny hnew heq

end Vx.Lib.Numbered
