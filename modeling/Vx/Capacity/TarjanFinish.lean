import Vx.Capacity.TarjanInvariant

namespace Vx.Capacity.Tarjan

open List

variable {succ : ℕ → List ℕ} {n : ℕ} {t : Tarjan} {gray rest : List (ℕ × ℕ)} {pending : Option ℕ} {v w i : ℕ}

theorem Core.explored_finish {x y : ℕ} (h : Core succ n t ((v, i) :: rest) none) (hi : (succ v)[i]? = none)
    (hy : Explored succ rest x y) : Explored succ ((v, i) :: rest) x y := by
  refine ⟨hy.1, fun j hj => ?_⟩
  rcases List.mem_cons.mp hj with he | hj
  · obtain ⟨rfl, rfl⟩ := Prod.mk.inj he
    rw [take_of_length_le (List.getElem?_eq_none_iff.mp hi)]
    exact hy.1
  · exact hy.2 j hj

theorem Core.gray_lt_top {e : ℕ × ℕ} (h : Core succ n t ((v, i) :: rest) pending) (he : e ∈ rest) :
    t.order e.1 < t.order v :=
  (List.pairwise_cons.mp h.gray_sorted).1 e he

theorem Core.gray_le_top {e : ℕ × ℕ} (h : Core succ n t ((v, i) :: rest) pending)
    (he : e ∈ (v, i) :: rest) : t.order e.1 ≤ t.order v := by
  rcases List.mem_cons.mp he with rfl | he
  · exact le_refl _
  · exact (h.gray_lt_top he).le

theorem Core.to_gray_below (h : Core succ n t ((v, i) :: rest) none) (hlow : t.low v ≠ t.order v) :
    ∃ e ∈ rest, t.order e.1 < t.order v ∧ Reach succ v e.1 := by
  have htop : (v, i) ∈ (v, i) :: rest := mem_cons_self
  have hlt : t.low v < t.order v := lt_of_le_of_ne (h.low_le _ htop) hlow
  obtain ⟨y, hy, hyl, hr⟩ := h.low_reach _ htop
  obtain ⟨e, he, hle, hr'⟩ := h.to_gray y hy
  have hne : e ≠ (v, i) := by
    rintro rfl
    simp only at hyl hle
    omega
  have her : e ∈ rest := by
    rcases List.mem_cons.mp he with he | he
    · exact absurd he hne
    · exact he
  exact ⟨e, her, h.gray_lt_top her, hr.trans hr'⟩

theorem core_finish_inner {p j : ℕ} (h : Core succ n t ((v, i) :: (p, j) :: rest) none)
    (hi : (succ v)[i]? = none) (hlow : t.low v ≠ t.order v) :
    Core succ n (t.lower p (t.low v)) ((p, j) :: rest) none := by
  have htop : (v, i) ∈ (v, i) :: (p, j) :: rest := mem_cons_self
  have hkeep : ∀ e ∈ (p, j) :: rest, e ∈ (v, i) :: (p, j) :: rest := fun e he => mem_cons_of_mem _ he
  have hpv : t.order p < t.order v := h.gray_lt_top (e := (p, j)) mem_cons_self
  have hsort := (List.pairwise_cons.mp h.gray_sorted).2
  have hother : ∀ e ∈ rest, (t.lower p (t.low v)).low e.1 = t.low e.1 := by
    intro e he
    have hne : e.1 ≠ p := by
      intro hc
      exact lt_irrefl _ (hc ▸ (List.pairwise_cons.mp hsort).1 e he)
    simp [lower, hne]
  have hparent : (t.lower p (t.low v)).low p = min (t.low p) (t.low v) := by simp [lower]
  have hle : ∀ e ∈ (p, j) :: rest, (t.lower p (t.low v)).low e.1 ≤ t.low e.1 := by
    intro e he
    rcases List.mem_cons.mp he with rfl | he
    · rw [hparent]
      exact min_le_left _ _
    · exact (hother e he).le
  refine { h with
    gray_stack := fun e he => h.gray_stack e (hkeep e he)
    gray_sorted := hsort
    pending_new := by simp
    explored_seen := fun x y hx hy => h.explored_seen x y hx (h.explored_finish hi hy)
    above_gray := fun e he => h.above_gray e (hkeep e he)
    to_gray := ?_
    low_le := fun e he => (hle e he).trans (h.low_le e (hkeep e he))
    low_reach := ?_
    low_bound := ?_ }
  · intro x hx
    obtain ⟨e, he, hge, hr⟩ := h.to_gray x hx
    rcases List.mem_cons.mp he with rfl | he
    · obtain ⟨e', he', hlt, hr'⟩ := h.to_gray_below hlow
      exact ⟨e', he', hlt.le.trans hge, hr.trans hr'⟩
    · exact ⟨e, he, hge, hr⟩
  · intro e he
    rcases List.mem_cons.mp he with rfl | he
    · rw [hparent]
      rcases min_choice (t.low p) (t.low v) with hm | hm
      · rw [hm]
        exact h.low_reach _ (hkeep _ mem_cons_self)
      · rw [hm]
        obtain ⟨y, hy, hyl, hr⟩ := h.low_reach _ htop
        exact ⟨y, hy, hyl, (h.above_gray (p, j) (hkeep _ mem_cons_self) v (h.gray_stack _ htop) hpv.le).trans hr⟩
    · rw [hother e he]
      exact h.low_reach e (hkeep e (mem_cons_of_mem _ he))
  · intro e he x hx hge hown y hy hex
    have hold := h.explored_finish hi hex
    by_cases hxv : t.order v ≤ t.order x
    · -- `x` belonged to the top, and now belongs to its parent.
      have hbound : t.low v ≤ t.order y := by
        refine h.low_bound _ htop x hx hxv (fun e' he' hlt => ?_) y hy hold
        exact absurd (h.gray_le_top he') (by simp only at hlt; omega)
      have hep : e = (p, j) := by
        rcases List.mem_cons.mp he with rfl | her
        · rfl
        · have hlt : t.order e.1 < t.order p := (List.pairwise_cons.mp hsort).1 e her
          have hxp : t.order x < t.order p := hown (p, j) mem_cons_self hlt
          omega
      rw [hep, hparent]
      exact (min_le_right _ _).trans hbound
    · refine (hle e he).trans (h.low_bound e (hkeep e he) x hx hge (fun e' he' hlt => ?_) y hy hold)
      rcases List.mem_cons.mp he' with rfl | he'
      · change t.order x < t.order v
        omega
      · exact hown e' he' hlt

theorem popUntil_of_mem {stack : List ℕ} (hv : v ∈ stack) :
    ∃ above below, stack = above ++ v :: below ∧ popUntil v stack = some (above ++ [v], below) := by
  induction stack with
  | nil => simp at hv
  | cons x xs ih =>
    by_cases hx : x = v
    · exact ⟨[], xs, by simp [hx], by simp [popUntil, hx]⟩
    · obtain ⟨above, below, hs, hp⟩ := ih (by simpa [Ne.symm hx] using hv)
      exact ⟨x :: above, below, by simp [hs], by simp [popUntil, hx, hp]⟩

variable {above below : List ℕ}

theorem Core.below_lt (h : Core succ n t gray pending) (hs : t.stack = above ++ v :: below) :
    ∀ x ∈ below, t.order x < t.order v := by
  have hsort := h.stack_sorted
  rw [hs] at hsort
  exact (List.pairwise_cons.mp (List.pairwise_append.mp hsort).2.1).1

theorem Core.above_lt (h : Core succ n t gray pending) (hs : t.stack = above ++ v :: below) :
    ∀ x ∈ above, t.order v < t.order x := by
  have hsort := h.stack_sorted
  rw [hs] at hsort
  exact fun x hx => (List.pairwise_append.mp hsort).2.2 x hx v mem_cons_self

theorem Core.component_iff (h : Core succ n t gray pending) (hs : t.stack = above ++ v :: below) {x : ℕ}
    (hx : x ∈ t.stack) : x ∈ above ++ [v] ↔ t.order v ≤ t.order x := by
  constructor
  · intro hc
    rcases List.mem_append.mp hc with ha | hv
    · exact (h.above_lt hs x ha).le
    · exact (congrArg t.order (List.mem_singleton.mp hv)).ge
  · intro hle
    rw [hs, append_cons, mem_append] at hx
    rcases hx with hc | hb
    · exact hc
    · exact absurd (h.below_lt hs x hb) (by omega)

theorem Core.component_mem (hs : t.stack = above ++ v :: below) {x : ℕ} (hx : x ∈ above ++ [v]) : x ∈ t.stack := by
  rw [hs, append_cons]
  exact mem_append_left _ hx

variable (h : Core succ n t ((v, i) :: rest) none)
include h

theorem Core.component_reach
    (hs : t.stack = above ++ v :: below) : ∀ x ∈ above ++ [v], Reach succ v x ∧ Reach succ x v := by
  intro x hx
  have hxs := Core.component_mem hs hx
  have hle := (h.component_iff hs hxs).mp hx
  refine ⟨h.above_gray (v, i) mem_cons_self x hxs hle, ?_⟩
  obtain ⟨e, he, _, hr⟩ := h.to_gray x hxs
  exact hr.trans (h.above_gray e he v (h.gray_stack _ mem_cons_self) (h.gray_le_top he))

theorem Core.component_closed (hi : (succ v)[i]? = none)
    (hroot : t.low v = t.order v) (hs : t.stack = above ++ v :: below) :
    ∀ x ∈ above ++ [v], ∀ y ∈ succ x, y ∈ above ++ [v] ∨ y ∈ t.sccs.flatten := by
  intro x hx y hy
  have hxs := Core.component_mem hs hx
  have hle := (h.component_iff hs hxs).mp hx
  have hex : Explored succ ((v, i) :: rest) x y := by
    apply h.explored_finish hi
    refine ⟨hy, fun j hj => ?_⟩
    have hlt := h.gray_lt_top hj
    simp only at hlt
    omega
  rcases h.explored_seen x y (h.stack_seen hxs) hex with hseen | hc
  · rcases (h.seen_iff y).mp hseen with hys | hyc
    · refine Or.inl ((h.component_iff hs hys).mpr ?_)
      rw [← hroot]
      refine h.low_bound (v, i) mem_cons_self x hxs hle (fun e he hlt => ?_) y hys hex
      exact absurd (h.gray_le_top he) (by simp only at hlt; omega)
    · exact Or.inr hyc
  · cases hc

omit h in
theorem topological_append {sccs : List (List ℕ)} {comp : List ℕ} (h : Topological succ sccs)
    (hc : ∀ x ∈ comp, ∀ y ∈ succ x, y ∈ comp ∨ y ∈ sccs.flatten) : Topological succ (sccs ++ [comp]) := by
  intro before c after he x hx y hy
  rcases eq_nil_or_concat after with rfl | ⟨after', last, rfl⟩
  · obtain ⟨rfl, hlast⟩ := append_inj' he rfl
    obtain rfl : comp = c := by simpa using hlast
    exact hc x hx y hy
  · have he' : sccs ++ [comp] = (before ++ c :: after') ++ [last] := by simpa using he
    exact h before c after' (append_inj' he' rfl).1 x hx y hy

theorem core_finish_root (hi : (succ v)[i]? = none) (hroot : t.low v = t.order v) (hs : t.stack = above ++ v :: below) :
    Core succ n { t with
      stack := below
      onStack := fun x => if x ∈ above ++ [v] then false else t.onStack x
      sccs := t.sccs ++ [above ++ [v]] } rest none := by
  have hkeep : ∀ e ∈ rest, e ∈ (v, i) :: rest := fun e he => mem_cons_of_mem _ he
  have hbelow : ∀ x ∈ below, x ∈ t.stack := by
    intro x hx
    rw [hs]
    simp [hx]
  have hmem : ∀ x, x ∈ t.stack ↔ x ∈ above ++ [v] ∨ x ∈ below := by
    intro x
    rw [hs, append_cons, mem_append]
  have hsplit : ∀ x ∈ t.stack, t.order x < t.order v → x ∈ below := by
    intro x hx hlt
    rcases (hmem x).mp hx with hc | hb
    · exact absurd ((h.component_iff hs hx).mp hc) (by omega)
    · exact hb
  have hout : ∀ x ∈ below, x ∉ above ++ [v] := by
    intro x hx hc
    have h₁ := h.below_lt hs x hx
    have h₂ := (h.component_iff hs (hbelow x hx)).mp hc
    omega
  have hflat : (t.sccs ++ [above ++ [v]]).flatten = t.sccs.flatten ++ (above ++ [v]) := by simp
  refine { h with
    onStack_iff := ?_
    seen_iff := ?_
    apart := ?_
    stack_sorted := ?_
    gray_stack := fun e he => hsplit _ (h.gray_stack e (hkeep e he)) (h.gray_lt_top he)
    gray_sorted := (List.pairwise_cons.mp h.gray_sorted).2
    pending_new := by simp
    explored_seen := fun x y hx hy => h.explored_seen x y hx (h.explored_finish hi hy)
    above_gray := fun e he x hx => h.above_gray e (hkeep e he) x (hbelow x hx)
    to_gray := ?_
    low_le := fun e he => h.low_le e (hkeep e he)
    low_reach := ?_
    low_bound := ?_
    sccs_reach := ?_
    sccs_nonempty := ?_
    sccs_nodup := ?_
    topological := topological_append h.topological (h.component_closed hi hroot hs) }
  · intro x
    by_cases hc : x ∈ above ++ [v]
    · simp only [hc, ↓reduceIte, Bool.false_eq_true, false_iff]
      exact fun hb => hout x hb hc
    · simp only [hc, ↓reduceIte, h.onStack_iff x, hmem x, false_or]
  · intro x
    change t.Seen x ↔ x ∈ below ∨ x ∈ (t.sccs ++ [above ++ [v]]).flatten
    rw [h.seen_iff x, hmem x, hflat, mem_append (s := t.sccs.flatten)]
    tauto
  · intro x hx
    rw [hflat, mem_append, not_or]
    exact ⟨h.apart x (hbelow x hx), hout x hx⟩
  · have hsort := h.stack_sorted
    rw [hs] at hsort
    exact (List.pairwise_cons.mp (List.pairwise_append.mp hsort).2.1).2
  · intro x hx
    obtain ⟨e, he, hle, hr⟩ := h.to_gray x (hbelow x hx)
    rcases List.mem_cons.mp he with rfl | he
    · exact absurd (h.below_lt hs x hx) (by simp only at hle; omega)
    · exact ⟨e, he, hle, hr⟩
  · intro e he
    obtain ⟨y, hy, hyl, hr⟩ := h.low_reach e (hkeep e he)
    refine ⟨y, hsplit y hy ?_, hyl, hr⟩
    have h₁ := h.low_le e (hkeep e he)
    have h₂ := h.gray_lt_top he
    omega
  · intro e he x hx hge hown y hy hex
    refine h.low_bound e (hkeep e he) x (hbelow x hx) hge (fun e' he' hlt => ?_) y (hbelow y hy)
      (h.explored_finish hi hex)
    rcases List.mem_cons.mp he' with rfl | he'
    · exact h.below_lt hs x hx
    · exact hown e' he' hlt
  · intro comp hcomp x hx y hy
    rcases List.mem_append.mp hcomp with hold | hnew
    · exact h.sccs_reach comp hold x hx y hy
    · obtain rfl := List.mem_singleton.mp hnew
      exact (h.component_reach hs x hx).2.trans (h.component_reach hs y hy).1
  · intro comp hcomp
    rcases List.mem_append.mp hcomp with hold | hnew
    · exact h.sccs_nonempty comp hold
    · rw [List.mem_singleton.mp hnew]
      simp
  · rw [hflat]
    apply List.Nodup.append h.sccs_nodup
    · have hsort := h.stack_sorted
      rw [hs, append_cons] at hsort
      apply (List.pairwise_append.mp hsort).1.imp
      rintro a b hab rfl
      exact lt_irrefl _ hab
    · intro x hx hc
      exact h.apart x (Core.component_mem hs hc) hx

end Vx.Capacity.Tarjan
