import Vx.Graphs.Model

namespace Vx.Graphs

open List

variable {n : ℕ} (marked : Fin n → Bool) (value : Fin n → ℤ)

def pickStep (found : Option (Fin n) × ℤ) (i : Fin n) : Option (Fin n) × ℤ :=
  if marked i = false then
    if value i < found.2 then (some i, value i) else found
  else found

theorem pick_eq : pick marked value = ((List.finRange n).foldl (pickStep marked value) (none, graphInf)).1 := rfl

structure Found (seen : List (Fin n)) (found : Option (Fin n) × ℤ) : Prop where
  least : ∀ i ∈ seen, marked i = false → found.2 ≤ value i
  le_inf : found.2 ≤ graphInf
  none : found.1 = none → found.2 = graphInf
  some : ∀ u, found.1 = some u → marked u = false ∧ found.2 = value u ∧ value u < graphInf

variable {marked value} {seen : List (Fin n)} {found : Option (Fin n) × ℤ}

theorem Found.step (h : Found marked value seen found)
    (i : Fin n) : Found marked value (seen ++ [i]) (pickStep marked value found i) := by
  unfold pickStep
  by_cases hm : marked i = false
  · rw [if_pos hm]
    by_cases hlt : value i < found.2
    · rw [if_pos hlt]
      refine ⟨?_, hlt.le.trans h.le_inf, fun hnone => (by cases hnone), ?_⟩
      · intro j hj hmj
        rcases List.mem_append.1 hj with hold | hnew
        · exact hlt.le.trans (h.least j hold hmj)
        · rw [List.mem_singleton.1 hnew]
      · intro u hu
        cases hu
        exact ⟨hm, rfl, hlt.trans_le h.le_inf⟩
    · rw [if_neg hlt]
      refine ⟨?_, h.le_inf, h.none, h.some⟩
      intro j hj hmj
      rcases List.mem_append.1 hj with hold | hnew
      · exact h.least j hold hmj
      · rw [List.mem_singleton.1 hnew]
        exact not_lt.1 hlt
  · rw [if_neg hm]
    refine ⟨?_, h.le_inf, h.none, h.some⟩
    intro j hj hmj
    rcases List.mem_append.1 hj with hold | hnew
    · exact h.least j hold hmj
    · rw [List.mem_singleton.1 hnew] at hmj
      exact absurd hmj hm

theorem Found.foldl (h : Found marked value seen found)
    (l : List (Fin n)) : Found marked value (seen ++ l) (l.foldl (pickStep marked value) found) := by
  induction l generalizing seen found with
  | nil => rwa [append_nil]
  | cons i l ih =>
    have hrest := ih (h.step i)
    rwa [append_assoc, singleton_append] at hrest

variable (marked value) in
theorem found_finRange :
    Found marked value (List.finRange n) ((List.finRange n).foldl (pickStep marked value) (none, graphInf)) := by
  have hstart : Found marked value [] (none, graphInf) :=
    ⟨fun _ hi => (by cases hi), le_rfl, fun _ => rfl, fun _ hu => (by cases hu)⟩
  exact hstart.foldl (List.finRange n)

theorem pick_none (h : pick marked value = none) : ∀ i, marked i = false → graphInf ≤ value i := by
  rw [pick_eq] at h
  intro i hi
  have hfound := found_finRange marked value
  rw [← hfound.none h]
  exact hfound.least i (mem_finRange i) hi

theorem pick_some {u : Fin n} (h : pick marked value = some u) :
    marked u = false ∧ value u < graphInf ∧ ∀ i, marked i = false → value u ≤ value i := by
  rw [pick_eq] at h
  have hfound := found_finRange marked value
  obtain ⟨hm, hvalue, hlt⟩ := hfound.some u h
  refine ⟨hm, hlt, ?_⟩
  intro i hi
  rw [← hvalue]
  exact hfound.least i (mem_finRange i) hi

end Vx.Graphs
