import Mathlib

namespace Vx.Lib.Walks

open List

variable {V : Type}

/-- A walk from a vertex along others to the last of them, with the sum of the weights of its edges; `none` is the
weight of no edge. -/
inductive Walk (weight : V → V → Option ℤ) : V → List V → V → ℤ → Prop
  | nil (a : V) : Walk weight a [] a 0
  | cons {a b c : V} {p : List V} {x t : ℤ} (edge : weight a b = some x) (rest : Walk weight b p c t) :
      Walk weight a (b :: p) c (x + t)

structure Path (weight : V → V → Option ℤ) (a : V) (p : List V) (b : V) (c : ℤ) : Prop where
  walk : Walk weight a p b c
  nodup : (a :: p).Nodup

def NoNegativeCycle (weight : V → V → Option ℤ) : Prop := ∀ a p c, Walk weight a p a c → 0 ≤ c

def Shortest (weight : V → V → Option ℤ) (inf : ℤ) (a b : V) (d : ℤ) : Prop :=
  (∃ p, Path weight a p b d ∧ ∀ q c, Path weight a q b c → d ≤ c) ∨ ((∀ q c, ¬ Path weight a q b c) ∧ d = inf)

variable {weight : V → V → Option ℤ}

theorem Shortest.unique {inf d d' : ℤ} {a b : V} (h : Shortest weight inf a b d) (h' : Shortest weight inf a b d') :
    d = d' := by
  rcases h with ⟨p, hp, hleast⟩ | ⟨hnone, rfl⟩
  · rcases h' with ⟨p', hp', hleast'⟩ | ⟨hnone', -⟩
    · exact le_antisymm (hleast p' d' hp') (hleast' p d hp)
    · exact absurd hp (hnone' p d)
  · rcases h' with ⟨p', hp', -⟩ | ⟨-, rfl⟩
    · exact absurd hp' (hnone p' d')
    · rfl

section
variable {a b : V}

theorem Walk.nil_inv {c : ℤ} (h : Walk weight a [] b c) : a = b ∧ c = 0 := by
  cases h
  exact ⟨rfl, rfl⟩

theorem Walk.edge {x : ℤ} (h : weight a b = some x) : Walk weight a [b] b x := by
  have hwalk := Walk.cons h (.nil b)
  rwa [add_zero] at hwalk

variable {c : V} {p q : List V} {t : ℤ}

theorem Walk.append {s : ℤ} (h : Walk weight a p b s) (h' : Walk weight b q c t) :
    Walk weight a (p ++ q) c (s + t) := by
  induction h with
  | nil a =>
    rw [zero_add]
    exact h'
  | cons edge rest ih =>
    rw [add_assoc]
    exact .cons edge (ih h')

theorem Walk.split (h : Walk weight a (p ++ q) c t) :
    ∃ b t₁ t₂, Walk weight a p b t₁ ∧ Walk weight b q c t₂ ∧ t = t₁ + t₂ := by
  induction p generalizing a t with
  | nil => exact ⟨a, 0, t, .nil a, h, (zero_add t).symm⟩
  | cons v p ih =>
    cases h with
    | cons edge rest =>
      obtain ⟨b, t₁, t₂, h₁, h₂, rfl⟩ := ih rest
      exact ⟨b, _, t₂, .cons edge h₁, h₂, (add_assoc ..).symm⟩

variable {v : V}

theorem Walk.concat_inv (h : Walk weight a (p ++ [v]) b t) :
    v = b ∧ ∃ u t' x, Walk weight a p u t' ∧ weight u v = some x ∧ t = t' + x := by
  obtain ⟨u, t₁, t₂, h₁, h₂, rfl⟩ := h.split
  cases h₂ with
  | cons edge rest =>
    obtain ⟨rfl, rfl⟩ := rest.nil_inv
    exact ⟨rfl, u, t₁, _, h₁, edge, by rw [add_zero]⟩

theorem Walk.split_at (h : Walk weight a (p ++ v :: q) c t) :
    ∃ t₁ t₂, Walk weight a (p ++ [v]) v t₁ ∧ Walk weight v q c t₂ ∧ t = t₁ + t₂ := by
  rw [append_cons] at h
  obtain ⟨b, t₁, t₂, h₁, h₂, rfl⟩ := h.split
  obtain ⟨rfl, -⟩ := h₁.concat_inv
  exact ⟨t₁, t₂, h₁, h₂, rfl⟩

theorem Path.nil (a : V) : Path weight a [] a 0 := ⟨.nil a, nodup_singleton a⟩

theorem Path.concat_inv (h : Path weight a (p ++ [v]) b t) :
    v = b ∧ ∃ u t' x, Path weight a p u t' ∧ weight u v = some x ∧ t = t' + x := by
  obtain ⟨hv, u, t', x, hwalk, hedge, ht⟩ := h.walk.concat_inv
  have hnodup : ((a :: p) ++ [v]).Nodup := h.nodup
  exact ⟨hv, u, t', x, ⟨hwalk, (List.nodup_append.1 hnodup).1⟩, hedge, ht⟩

theorem Path.split_at (h : Path weight a (p ++ v :: q) c t) :
    ∃ t₁ t₂, Path weight a (p ++ [v]) v t₁ ∧ Path weight v q c t₂ ∧ t = t₁ + t₂ := by
  obtain ⟨t₁, t₂, h₁, h₂, ht⟩ := h.walk.split_at
  have hnodup : ((a :: p) ++ v :: q).Nodup := h.nodup
  obtain ⟨hleft, hright, hdisjoint⟩ := List.nodup_append.1 hnodup
  have hfirst : ((a :: p) ++ [v]).Nodup := by
    rw [nodup_append]
    refine ⟨hleft, nodup_singleton v, ?_⟩
    intro x hx y hy
    rw [List.mem_singleton.1 hy]
    exact hdisjoint x hx v mem_cons_self
  exact ⟨t₁, t₂, ⟨h₁, hfirst⟩, ⟨h₂, hright⟩, ht⟩

theorem Path.length_lt [Fintype V] {c : ℤ} (h : Path weight a p b c) : p.length < Fintype.card V := by
  have hle := h.nodup.length_le_card
  rwa [length_cons] at hle

end

theorem Walk.exists_path (hcycle : NoNegativeCycle weight) {a b : V} {p : List V} {t : ℤ}
    (h : Walk weight a p b t) : ∃ q c, Path weight a q b c ∧ q ⊆ p ∧ c ≤ t := by
  induction hn : p.length using Nat.strong_induction_on generalizing a p t with
  | _ n ih =>
    by_cases ha : a ∈ p
    · obtain ⟨p₁, p₂, rfl⟩ := append_of_mem ha
      obtain ⟨t₁, t₂, h₁, h₂, rfl⟩ := h.split_at
      have hlt : p₂.length < n := by
        rw [← hn, length_append, length_cons]
        omega
      obtain ⟨q, c, hq, hsub, hle⟩ := ih _ hlt h₂ rfl
      refine ⟨q, c, hq, fun x hx => mem_append_right _ (mem_cons_of_mem _ (hsub hx)), ?_⟩
      have := hcycle a _ t₁ h₁
      omega
    · cases h with
      | nil => exact ⟨[], 0, .nil _, List.Subset.refl _, le_rfl⟩
      | @cons a v b p x t edge rest =>
        have hlt : p.length < n := by
          rw [← hn, length_cons]
          omega
        obtain ⟨q, c, hq, hsub, hle⟩ := ih _ hlt rest rfl
        have hmem : v :: q ⊆ v :: p := cons_subset_cons v hsub
        exact ⟨v :: q, x + c, ⟨.cons edge hq.walk, List.nodup_cons.2 ⟨fun hin => ha (hmem hin), hq.nodup⟩⟩, hmem,
          by omega⟩

theorem Walk.nonneg (hpos : ∀ a b x, weight a b = some x → 0 ≤ x) {a b : V} {p : List V} {t : ℤ}
    (h : Walk weight a p b t) : 0 ≤ t := by
  induction h with
  | nil a => exact le_rfl
  | cons edge rest ih => exact add_nonneg (hpos _ _ _ edge) ih

theorem noNegativeCycle_of_nonneg (hpos : ∀ a b x, weight a b = some x → 0 ≤ x) : NoNegativeCycle weight :=
  fun _ _ _ h => h.nonneg hpos

structure Bounded (weight : V → V → Option ℤ) (low inf : ℤ) : Prop where
  edge_lt : ∀ a b x, weight a b = some x → x < inf
  path_lt : ∀ a p b c, Path weight a p b c → c < inf
  le_path : ∀ a p b c, Path weight a p b c → low ≤ c

variable {low inf : ℤ} {a b : V}

theorem Bounded.le_walk (h : Bounded weight low inf) (hcycle : NoNegativeCycle weight)
    {p : List V} {t : ℤ} (hw : Walk weight a p b t) : low ≤ t := by
  obtain ⟨q, c, hq, -, hle⟩ := hw.exists_path hcycle
  exact (h.le_path a q b c hq).trans hle

theorem Walk.abs_le {bound : ℤ} (hedge : ∀ a b x, weight a b = some x → |x| ≤ bound) {p : List V} {t : ℤ}
    (h : Walk weight a p b t) : |t| ≤ p.length * bound := by
  induction h with
  | nil a => simp
  | @cons a b c p x t edge rest ih =>
    have hx := hedge a b x edge
    rw [length_cons, Nat.cast_succ, add_mul, one_mul]
    calc |x + t| ≤ |x| + |t| := abs_add_le x t
      _ ≤ bound + p.length * bound := add_le_add hx ih
      _ = p.length * bound + bound := add_comm ..

theorem bounded_of_edges [Fintype V] {bound : ℤ} (hedge : ∀ a b x, weight a b = some x → |x| ≤ bound)
    (hbound : 0 ≤ bound) (hlow : low ≤ -(Fintype.card V * bound)) (hinf : Fintype.card V * bound < inf) :
    Bounded weight low inf := by
  have hpath : ∀ a p b c, Path weight a p b c → |c| ≤ Fintype.card V * bound := by
    intro a p b c hp
    have hlen : (p.length : ℤ) ≤ Fintype.card V := by exact_mod_cast hp.length_lt.le
    exact (hp.walk.abs_le hedge).trans (mul_le_mul_of_nonneg_right hlen hbound)
  refine ⟨?_, ?_, ?_⟩
  · intro a b x hx
    have hcard : (1 : ℤ) ≤ Fintype.card V := by exact_mod_cast Fintype.card_pos_iff.2 ⟨a⟩
    have hone : bound ≤ Fintype.card V * bound := le_mul_of_one_le_left hbound hcard
    exact ((le_abs_self x).trans ((hedge a b x hx).trans hone)).trans_lt hinf
  · intro a p b c hp
    exact ((le_abs_self c).trans (hpath a p b c hp)).trans_lt hinf
  · intro a p b c hp
    have hneg := neg_abs_le c
    have hc := hpath a p b c hp
    omega

theorem shortest_of_bounds (h : Bounded weight low inf) (hcycle : NoNegativeCycle weight)
    {d : ℤ} (hsound : d = inf ∨ ∃ p, Walk weight a p b d) (hle : ∀ q c, Path weight a q b c → d ≤ c) :
    Shortest weight inf a b d := by
  rcases hsound with rfl | ⟨p, hp⟩
  · right
    refine ⟨?_, rfl⟩
    intro q c hq
    exact absurd (h.path_lt a q b c hq) (not_lt.2 (hle q c hq))
  · left
    obtain ⟨q, c, hq, -, hc⟩ := hp.exists_path hcycle
    have heq : d = c := le_antisymm (hle q c hq) hc
    exact ⟨q, heq ▸ hq, hle⟩

end Vx.Lib.Walks
