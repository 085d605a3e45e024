import Mathlib

namespace Vx.Lib.WorkList

open List
open Function (update update_self update_of_ne)

variable {V A : Type} [DecidableEq V]

structure Work (V A : Type) where
  value : V → A
  queue : List V

def Work.touch (change : V → A → A) (enqueue : V → A → Bool) (σ : Work V A) (v : V) : Work V A where
  value := update σ.value v (change v (σ.value v))
  queue := if enqueue v (σ.value v) then σ.queue ++ [v] else σ.queue

/-- A pass over distinct nodes changes each of them as its value was before the pass. -/
theorem Work.foldl_touch (change : V → A → A) (enqueue : V → A → Bool) {l : List V} (hl : l.Nodup) (σ : Work V A) :
    l.foldl (touch change enqueue) σ = ⟨fun v => if v ∈ l then change v (σ.value v) else σ.value v,
        σ.queue ++ l.filter fun v => enqueue v (σ.value v)⟩ := by
  induction l generalizing σ with
  | nil => simp
  | cons u l ih =>
    obtain ⟨hu, hl⟩ := List.nodup_cons.mp hl
    have hrest : ∀ v ∈ l, (σ.touch change enqueue u).value v = σ.value v := by
      intro v hv
      apply update_of_ne
      rintro rfl
      exact hu hv
    rw [foldl_cons, ih hl]
    congr 1
    · funext v
      by_cases hv : v ∈ l
      · rw [if_pos hv, if_pos (mem_cons_of_mem _ hv), hrest v hv]
      rw [if_neg hv]
      by_cases hvu : v = u
      · subst hvu
        rw [if_pos mem_cons_self]
        exact update_self v _ _
      · rw [if_neg (by simp [hv, hvu])]
        exact update_of_ne hvu _ _
    · rw [filter_congr fun v hv => by rw [hrest v hv]]
      by_cases hq : enqueue u (σ.value u) = true
      · simp [touch, hq]
      · simp [touch, hq]

def drain (work : V → Work V A → Work V A) : ℕ → ℕ → Work V A → Option (Work V A × ℕ)
  | 0, _, _ => none
  | fuel + 1, head, σ =>
    match σ.queue[head]? with
    | none => some (σ, head)
    | some u => drain work fuel (head + 1) (work u σ)

omit [DecidableEq V] in
theorem drain_ends {work : V → Work V A → Work V A} {I : ℕ → Work V A → Prop} {bound : ℕ}
    (hstep : ∀ head σ u, I head σ → σ.queue[head]? = some u → I (head + 1) (work u σ))
    (hbound : ∀ head σ, I head σ → head ≤ σ.queue.length ∧ σ.queue.length ≤ bound)
    {fuel head : ℕ} {σ : Work V A} (h : I head σ) (hfuel : bound < fuel + head) :
    ∃ σ', drain work fuel head σ = some (σ', σ'.queue.length) ∧ I σ'.queue.length σ' := by
  induction fuel generalizing head σ with
  | zero =>
    have := hbound head σ h
    omega
  | succ fuel ih =>
    cases hu : σ.queue[head]? with
    | none =>
      have hle := List.getElem?_eq_none_iff.mp hu
      have hhead : head = σ.queue.length := Nat.le_antisymm (hbound head σ h).1 hle
      exact ⟨σ, by rw [drain, hu, hhead], hhead ▸ h⟩
    | some u =>
      obtain ⟨σ', hdrain, hend⟩ := ih (hstep head σ u h hu) (by omega)
      refine ⟨σ', ?_, hend⟩
      rw [drain, hu]
      exact hdrain

end Vx.Lib.WorkList
