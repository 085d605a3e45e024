import Vx.Capacity.FoldGroups

namespace Vx.Capacity.Fold

open List
open Tarjan (Reach)

variable {p : Program} {budgets : Budgets} {base : List Diagnostic} {f : Fold}
  {sccs before after : List (List ℕ)} {scc : List ℕ} {n : ℕ}

def rankIn (sccs : List (List ℕ)) (n : ℕ) : ℕ := sccs.findIdx fun scc => n ∈ scc

theorem rankIn_eq (hnodup : (before ++ scc :: after).flatten.Nodup) (hn : n ∈ scc) :
    rankIn (before ++ scc :: after) n = before.length := by
  induction before with
  | nil => simp [rankIn, findIdx_cons, hn]
  | cons c before ih =>
    obtain ⟨_, hrest, hdis⟩ := List.nodup_append.mp (by simpa using hnodup)
    have hc : n ∉ c := by
      intro hc
      exact hdis n hc n (by simp [hn]) rfl
    have hih : rankIn (before ++ scc :: after) n = before.length := ih (by simpa using hrest)
    simp only [rankIn] at hih
    simp [rankIn, findIdx_cons, hc, hih]

theorem rankIn_lt (hn : n ∈ before.flatten) (rest : List (List ℕ)) : rankIn (before ++ rest) n < before.length := by
  obtain ⟨c, hc, hnc⟩ := List.mem_flatten.mp hn
  have hlt : before.findIdx (fun scc => n ∈ scc) < before.length :=
    findIdx_lt_length_of_exists ⟨c, hc, by simpa using hnc⟩
  simp [rankIn, findIdx_append, hlt]

theorem succ_of_le (h : p.nodes.length ≤ n) : p.succ n = [] := by
  simp [Program.succ, Program.node, List.getD, List.getElem?_eq_none h]

section
variable (hC : Components p.succ p.nodes.length sccs)
include hC

theorem exists_split (hn : n < p.nodes.length) : ∃ before scc after, sccs = before ++ scc :: after ∧ n ∈ scc := by
  obtain ⟨scc, hscc, hmem⟩ := List.mem_flatten.mp ((hC.mem_iff n).mpr hn)
  obtain ⟨before, after, rfl⟩ := append_of_mem hscc
  exact ⟨before, scc, after, rfl, hmem⟩

theorem components_group (hs : sccs = before ++ scc :: after) : Group p (rankIn sccs) scc := by
  subst hs
  have hmem : scc ∈ before ++ scc :: after := by simp
  refine ⟨hC.nonempty scc hmem, ?_, ?_, ?_⟩
  · exact (List.nodup_flatten.mp hC.nodup).1 scc hmem
  · intro i hi j hj
    rw [rankIn_eq hC.nodup hi, rankIn_eq hC.nodup hj]
  · intro i hi g hg hout
    rcases hC.topological before scc after rfl i hi g hg with hin | hbefore
    · exact absurd hin hout
    · rw [rankIn_eq hC.nodup hi]
      exact rankIn_lt hbefore _

theorem components_le : ∀ i, ∀ g ∈ p.succ i, rankIn sccs g ≤ rankIn sccs i := by
  intro i g hg
  by_cases hi : i < p.nodes.length
  · obtain ⟨before, scc, after, hs, hmem⟩ := exists_split hC hi
    have hG := components_group hC hs
    by_cases hin : g ∈ scc
    · exact (hG.same i hmem g hin).ge
    · exact (hG.leaves i hmem g hg hin).le
  · rw [succ_of_le (not_lt.mp hi)] at hg
    simp at hg

theorem components_lt {i g : ℕ} (hg : g ∈ p.succ i) (hback : ¬Reach p.succ g i) : rankIn sccs g < rankIn sccs i := by
  by_cases hi : i < p.nodes.length
  · obtain ⟨before, scc, after, hs, hmem⟩ := exists_split hC hi
    apply (components_group hC hs).leaves i hmem g hg
    intro hin
    exact hback (hC.connected scc (by simp [hs]) g hin i hmem)
  · rw [succ_of_le (not_lt.mp hi)] at hg
    simp at hg

theorem components_length (hs : sccs = before ++ scc :: after) : before.length ≤ p.nodes.length := by
  have hflat : sccs.flatten.length ≤ (List.range p.nodes.length).length := by
    apply (subperm_of_subset hC.nodup _).length_le
    intro v hv
    exact List.mem_range.mpr ((hC.mem_iff v).mp hv)
  have hcount : ∀ l : List (List ℕ), (∀ c ∈ l, c ≠ []) → l.length ≤ l.flatten.length := by
    intro l hl
    induction l with
    | nil => simp
    | cons c l ih =>
      have h₁ := List.length_pos_iff.mpr (hl c mem_cons_self)
      have h₂ := ih fun c hc => hl c (mem_cons_of_mem _ hc)
      simp only [length_cons, flatten_cons, length_append]
      omega
  have hlen := hcount sccs hC.nonempty
  rw [length_range] at hflat
  have hsplit : before.length ≤ sccs.length := by simp [hs]
  omega

theorem foldGroups_inv (hs : sccs = before ++ after)
    (h : Inv p (rankIn sccs) budgets base f fun n s => n ∈ before.flatten ∧ s ∈ budgets.keys) :
    ∃ f', after.foldlM (foldGroup p budgets) f = some f' ∧
      Inv p (rankIn sccs) budgets base f' fun n s => n ∈ sccs.flatten ∧ s ∈ budgets.keys := by
  induction after generalizing f before with
  | nil => exact ⟨f, rfl, by simpa [hs] using h⟩
  | cons scc after ih =>
    have hG := components_group hC hs
    have hnew : ∀ s ∈ budgets.keys, ∀ i ∈ scc, ¬(i ∈ before.flatten ∧ s ∈ budgets.keys) := by
      rintro s _ i hi ⟨hin, _⟩
      have h₁ := rankIn_lt hin (scc :: after)
      have hnodup := hC.nodup
      rw [hs] at hnodup
      rw [rankIn_eq hnodup hi] at h₁
      omega
    have hdone : ∀ s ∈ budgets.keys, ∀ i ∈ scc, ∀ g ∈ p.succ i, g ∉ scc → g ∈ before.flatten ∧ s ∈ budgets.keys := by
      intro s hkey i hi g hg hout
      rcases hC.topological before scc after hs i hi g hg with hin | hbefore
      · exact absurd hin hout
      · exact ⟨hbefore, hkey⟩
    have hrank : ∀ i ∈ scc, rankIn sccs i ≤ p.nodes.length := by
      intro i hi
      have hnodup := hC.nodup
      rw [hs] at hnodup ⊢
      rw [rankIn_eq hnodup hi]
      exact components_length hC hs
    obtain ⟨f₁, hf₁, hinv₁⟩ := foldGroup_inv hG (components_le hC) hrank hnew hdone h
    have hsplit : sccs = (before ++ [scc]) ++ after := by simp [hs]
    obtain ⟨f', hf', hinv⟩ := ih hsplit (by
      simpa only [flatten_append, mem_append, flatten_singleton, or_and_right] using hinv₁)
    exact ⟨f', by simp [hf₁, hf'], hinv⟩

end

theorem inv_start (p : Program) (rank : ℕ → ℕ) (budgets : Budgets) (errors : DiagnosticsVec) :
    Inv p rank budgets errors.inner (start errors) fun n s => n ∈ ([] : List (List ℕ)).flatten ∧ s ∈ budgets.keys := by
  constructor
  · constructor <;> simp [start]
  · constructor <;> simp [start, isReported]

theorem foldWithBudgets_inv (summaries : List FnCapacitySummary) (errors : DiagnosticsVec)
    (hne : budgets.entries ≠ []) :
    ∃ sccs f, foldWithBudgets summaries budgets errors = some ⟨f.errors.inner, errors.file⟩ ∧
      Components (Program.ofSummaries summaries).succ (Program.ofSummaries summaries).nodes.length sccs ∧
      Inv (Program.ofSummaries summaries) (rankIn sccs) budgets errors.inner f fun n s =>
        n < (Program.ofSummaries summaries).nodes.length ∧ s ∈ budgets.keys := by
  have hI := Program.ofSummaries_indexed summaries
  obtain ⟨sccs, hsccs, hC⟩ := sccsOf_components hI.succ_lt
  obtain ⟨f, hf, hinv⟩ := foldGroups_inv hC (nil_append sccs).symm (inv_start _ _ budgets errors)
  refine ⟨sccs, f, by simp [foldWithBudgets, hne, hsccs, hf], hC, ?_⟩
  simpa only [hC.mem_iff] using hinv

end Vx.Capacity.Fold
