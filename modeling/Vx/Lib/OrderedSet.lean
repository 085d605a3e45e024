import Mathlib

namespace Vx.Lib

open List

universe u

structure OrderedSet (α : Type u) [LinearOrder α] where
  list : List α
  ordered : list.Pairwise (· < ·)
deriving DecidableEq

namespace OrderedSet

variable {α : Type u} [LinearOrder α]

instance : Membership α (OrderedSet α) := ⟨fun s a => a ∈ s.list⟩

variable {s : OrderedSet α} {a : α}

theorem mem_list : a ∈ s.list ↔ a ∈ s := Iff.rfl

theorem nodup (s : OrderedSet α) : s.list.Nodup := s.ordered.imp fun h => ne_of_lt h

theorem ext {t : OrderedSet α} (h : ∀ a, a ∈ s ↔ a ∈ t) : s = t := by
  have hperm : s.list.Perm t.list := (perm_ext_iff_of_nodup s.nodup t.nodup).mpr h
  have heq : s.list = t.list :=
    hperm.eq_of_pairwise (fun a b _ _ hab hba => absurd hba (not_lt_of_gt hab)) s.ordered t.ordered
  cases t
  cases heq
  rfl

def empty : OrderedSet α := ⟨[], List.Pairwise.nil⟩

def singleton (a : α) : OrderedSet α := ⟨[a], pairwise_singleton _ a⟩

@[simp] theorem not_mem_empty (a : α) : a ∉ (empty : OrderedSet α) := not_mem_nil

@[simp] theorem mem_singleton {b : α} : a ∈ singleton b ↔ a = b := List.mem_singleton

theorem pairwise_orderedInsert {l : List α} (h : l.Pairwise (· < ·)) (ha : a ∉ l) :
    (l.orderedInsert (· ≤ ·) a).Pairwise (· < ·) := by
  have hle := List.Pairwise.orderedInsert a l (h.imp fun {x y} hxy => le_of_lt hxy)
  have hnodup : (l.orderedInsert (· ≤ ·) a).Nodup := by
    rw [(perm_orderedInsert (· ≤ ·) a l).nodup_iff, nodup_cons]
    exact ⟨ha, h.imp fun h => ne_of_lt h⟩
  exact (hle.and hnodup).imp fun hxy => lt_of_le_of_ne hxy.1 hxy.2

def insert (a : α) (s : OrderedSet α) : OrderedSet α :=
  if h : a ∈ s.list then s else ⟨s.list.orderedInsert (· ≤ ·) a, pairwise_orderedInsert s.ordered h⟩

@[simp] theorem mem_insert {b : α} : a ∈ insert b s ↔ a = b ∨ a ∈ s := by
  unfold insert
  split_ifs with h
  · constructor
    · exact Or.inr
    · rintro (rfl | ha)
      · exact h
      · exact ha
  · exact mem_orderedInsert _

def extend (s t : OrderedSet α) : OrderedSet α := t.list.foldr insert s

@[simp] theorem mem_extend {t : OrderedSet α} : a ∈ s.extend t ↔ a ∈ s ∨ a ∈ t := by
  rw [← mem_list (s := t), extend]
  induction t.list with
  | nil => simp
  | cons b l ih =>
    rw [foldr_cons, mem_insert, ih, mem_cons]
    constructor
    · rintro (h | h | h)
      · exact Or.inr (Or.inl h)
      · exact Or.inl h
      · exact Or.inr (Or.inr h)
    · rintro (h | h | h)
      · exact Or.inr (Or.inl h)
      · exact Or.inl h
      · exact Or.inr (Or.inr h)

end OrderedSet

end Vx.Lib
