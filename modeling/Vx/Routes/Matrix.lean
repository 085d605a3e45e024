import Vx.Routes.Optimal

namespace Vx.Routes.TransferCostGraph

open List Option AList
open Interface (MemorySpace)
open Lib

variable {order : Dijkstra.PopOrder MemorySpace Key} {g g' : TransferCostGraph}

inductive Built (order : Dijkstra.PopOrder MemorySpace Key) : TransferCostGraph → Prop
  | empty : Built order ⟨∅, ∅, ∅, []⟩
  | addTransferEdge {g : TransferCostGraph} (h : Built order g) (src dst : MemorySpace) (cost : Word 32) :
      Built order (g.addTransferEdge src dst cost)
  | priceEdge {g : TransferCostGraph} (h : Built order g) (e : TransferEdge) : Built order (g.priceEdge e)
  | priceDerived {g : TransferCostGraph} (h : Built order g)
      (derived : MemorySpace → MemorySpace → Option DerivedCost) (edge : MemorySpace × MemorySpace) :
      Built order (g.priceDerived derived edge)
  | precomputeCosts {g g' : TransferCostGraph} (h : Built order g) (hg' : g.precomputeCosts order = .ok g') :
      Built order g'

theorem Built.foldl {α : Type} {f : TransferCostGraph → α → TransferCostGraph}
    (hf : ∀ {g : TransferCostGraph} x, Built order g → Built order (f g x)) (xs : List α) (h : Built order g) :
    Built order (xs.foldl f g) := by
  induction xs generalizing g with
  | nil => exact h
  | cons x xs ih => exact ih (hf x h)

theorem built_standard : Built order standard := Built.foldl (fun e h => h.addTransferEdge e.1 e.2.1 e.2.2) _ .empty

theorem Built.applyDescriptorEdges (h : Built order g) (transfers : List TransferEdge) :
    Built order (g.applyDescriptorEdges transfers) :=
  Built.foldl (fun e h => (h.addTransferEdge ..).priceEdge e) transfers h

def Swept (g : TransferCostGraph) : Prop :=
  ∀ s t, (s, t) ∈ g.costMatrix → s ∈ g.spaces ∧ t ∈ g.spaces ∧ ∃ links, g.Route s links t

structure Grows (g g' : TransferCostGraph) : Prop where
  declared : ∀ link, g.Declared link → g'.Declared link
  spaces : g.spaces ⊆ g'.spaces

theorem Grows.route (h : Grows g g') {s t : MemorySpace} {links : List Link} (hroute : g.Route s links t) :
    g'.Route s links t := by
  induction hroute with
  | nil => exact .nil
  | snoc _ declared ih => exact ih.snoc (h.declared _ declared)

theorem Swept.grows (hswept : g.Swept) (h : Grows g g') (hmatrix : g'.costMatrix = g.costMatrix) : g'.Swept := by
  intro s t hin
  obtain ⟨hs, ht, links, hroute⟩ := hswept s t (hmatrix ▸ hin)
  exact ⟨h.spaces hs, h.spaces ht, links, h.route hroute⟩

theorem grows_of_edges_eq (h : g'.transferEdges = g.transferEdges) : Grows g g' :=
  ⟨fun _ hd => by simpa [Declared, neighbors, h] using hd, fun _ hs => by simpa [TransferCostGraph.spaces, h] using hs⟩

theorem mem_spaces {x : MemorySpace} :
    x ∈ g.spaces ↔ x ∈ builtins ∨ x ∈ g.transferEdges ∨ ∃ link, g.Declared link ∧ link.target = x := by
  simp only [spaces, mem_dedup, mem_append, mem_flatMap, mem_cons, List.mem_map]
  refine or_congr_right ⟨?_, ?_⟩
  · rintro ⟨⟨src, ns⟩, hentry, hx⟩
    have hlookup := AList.mem_lookup_iff.mpr hentry
    rcases hx with rfl | ⟨⟨dst, w⟩, hin, rfl⟩
    · exact .inl (AList.lookup_isSome.mp (by rw [Option.mem_def.mp hlookup]; rfl))
    · refine .inr ⟨⟨src, dst, w⟩, ?_, rfl⟩
      simpa [Declared, neighbors, Option.mem_def.mp hlookup] using hin
  · rintro (hx | ⟨link, hdeclared, rfl⟩)
    · obtain ⟨ns, hns⟩ := Option.isSome_iff_exists.mp (AList.lookup_isSome.mpr hx)
      exact ⟨_, AList.mem_lookup_iff.mp hns, .inl rfl⟩
    unfold Declared neighbors at hdeclared
    cases hlookup : g.transferEdges.lookup link.source with
    | none => simp [hlookup] at hdeclared
    | some ns =>
      rw [hlookup] at hdeclared
      exact ⟨_, AList.mem_lookup_iff.mp hlookup, .inr ⟨_, hdeclared, rfl⟩⟩

theorem grows_addTransferEdge (src dst : MemorySpace) (cost : Word 32) : Grows g (g.addTransferEdge src dst cost) := by
  have hdeclared : ∀ link, g.Declared link → (g.addTransferEdge src dst cost).Declared link := by
    intro link h
    unfold Declared addTransferEdge neighbors at *
    by_cases hs : link.source = src
    · rw [hs] at h ⊢
      rw [lookup_insert]
      exact mem_append_left _ h
    · rwa [lookup_insert_ne hs]
  refine ⟨hdeclared, fun x hx => ?_⟩
  rw [mem_spaces] at hx ⊢
  rcases hx with hx | hx | ⟨link, hlink, hx⟩
  · exact .inl hx
  · exact .inr (.inl ((AList.mem_insert _).mpr (.inr hx)))
  · exact .inr (.inr ⟨link, hdeclared link hlink, hx⟩)

section
variable {result : MemorySpace × MemorySpace → Option (Word 32 × List MemorySpace)}

theorem foldlM_sweepPair (hresult : ∀ pair, g.transferPath order pair.1 pair.2 = .ok (result pair))
    (pairs : List (MemorySpace × MemorySpace)) (matrix : AList fun _ : MemorySpace × MemorySpace => Word 32) :
    ∃ matrix', pairs.foldlM (g.sweepPair order) matrix = .ok matrix' ∧ ∀ pair, matrix'.lookup pair =
        if pair ∈ pairs then ((result pair).map Prod.fst).or (matrix.lookup pair) else matrix.lookup pair := by
  induction pairs generalizing matrix with
  | nil => exact ⟨matrix, rfl, by simp⟩
  | cons pair pairs ih =>
    obtain ⟨step, hstep, hlookup⟩ : ∃ step, g.sweepPair order matrix pair = .ok step ∧
        ∀ p, step.lookup p = if p = pair then ((result p).map Prod.fst).or (matrix.lookup p) else matrix.lookup p := by
      unfold sweepPair
      rw [hresult]
      cases hr : result pair with
      | none =>
        refine ⟨matrix, rfl, fun p => ?_⟩
        split
        next heq => simp [heq, hr]
        next => rfl
      | some found =>
        refine ⟨matrix.insert pair found.1, rfl, fun p => ?_⟩
        split
        next heq =>
          subst heq
          simp [hr]
        next hne => exact lookup_insert_ne hne
    obtain ⟨matrix', hfold, hlookup'⟩ := ih step
    refine ⟨matrix', ?_, fun p => ?_⟩
    · rw [foldlM_cons, hstep]
      exact hfold
    rw [hlookup', hlookup]
    by_cases hp : p = pair
    · subst hp
      cases (result p).map Prod.fst <;> simp
    · simp [hp]

theorem precomputeCosts_spec (hresult : ∀ pair, g.transferPath order pair.1 pair.2 = .ok (result pair)) :
    ∃ matrix, g.precomputeCosts order = .ok { g with costMatrix := matrix } ∧ ∀ s t, matrix.lookup (s, t) =
        if s ∈ g.spaces ∧ t ∈ g.spaces then ((result (s, t)).map Prod.fst).or (g.transferCost s t)
        else g.transferCost s t := by
  obtain ⟨matrix, hfold, hlookup⟩ := foldlM_sweepPair hresult (g.spaces ×ˢ g.spaces) g.costMatrix
  refine ⟨matrix, ?_, fun s t => ?_⟩
  · unfold precomputeCosts
    rw [hfold]
    rfl
  · rw [hlookup]
    simp only [mem_product, transferCost]

theorem Built.swept (h : Built order g) : g.Swept := by
  induction h with
  | empty => exact fun s t hin => absurd hin (notMem_empty _)
  | addTransferEdge _ src dst cost ih => exact ih.grows (grows_addTransferEdge src dst cost) rfl
  | priceEdge _ e ih =>
    unfold TransferCostGraph.priceEdge
    split
    next => exact ih.grows (grows_of_edges_eq rfl) rfl
    next =>
      split
      next => exact ih.grows (grows_of_edges_eq rfl) rfl
      next => exact ih
  | priceDerived _ derived edge ih =>
    unfold TransferCostGraph.priceDerived
    split
    next => exact ih.grows (grows_of_edges_eq rfl) rfl
    next => exact ih
  | @precomputeCosts g g' _ hg' ih =>
    choose result hresult hspec using fun pair : MemorySpace × MemorySpace =>
      g.transferPath_spec order pair.1 pair.2
    obtain ⟨matrix, hg, hlookup⟩ := precomputeCosts_spec hresult
    rw [hg, Except.ok.injEq] at hg'
    subst hg'
    have hgrows : Grows g { g with costMatrix := matrix } := grows_of_edges_eq rfl
    intro s t hin
    have hsome := AList.lookup_isSome.mpr hin
    rw [show AList.lookup (s, t) matrix = _ from hlookup s t] at hsome
    by_cases hold : (g.transferCost s t).isSome
    · obtain ⟨hs, ht, links, hroute⟩ := ih s t (AList.lookup_isSome.mp hold)
      exact ⟨hgrows.spaces hs, hgrows.spaces ht, links, hgrows.route hroute⟩
    have hnone : g.transferCost s t = none := by simpa using hold
    split at hsome
    next hmem =>
      refine ⟨hgrows.spaces hmem.1, hgrows.spaces hmem.2, ?_⟩
      have hresult' := hspec (s, t)
      cases hr : result (s, t) with
      | none => simp [hr, hnone] at hsome
      | some found =>
        rw [hr] at hresult'
        obtain ⟨links, hroute, -⟩ := hresult'
        exact ⟨links, hgrows.route hroute⟩
    next => simp [hnone] at hsome

end

/-- A search never fails. It gives a route exactly when there is one; the route is simple and the least one, and
the search and the matrix both report its total. -/
theorem transferPath_least (hg : Built order g) (hfit : g.TotalsFit) (s t : MemorySpace) :
    ∃ result, g.transferPath order s t = .ok result ∧ (result.isSome = true ↔ ∃ links, g.Route s links t) ∧
      (∀ cost path, result = some (cost, path) → ∃ links, g.Route s links t ∧ passed s links = path ∧ path.Nodup ∧
        g.Least s t links ∧ cost.val = totalWeight links) ∧
      ∃ g', g.precomputeCosts order = .ok g' ∧ g'.transferPath order s t = .ok result ∧
        (∀ cost, g'.transferCost s t = some cost → result.map Prod.fst = some cost) ∧
        (s ≠ t ∨ s ∈ g.spaces → g'.transferCost s t = result.map Prod.fst) ∧
        g'.canTransfer s t = (g'.transferCost s t).isSome := by
  choose result hresult hspec using fun pair : MemorySpace × MemorySpace =>
    g.transferPath_spec order pair.1 pair.2
  obtain ⟨matrix, hg', hlookup⟩ := precomputeCosts_spec hresult
  have hreach : (result (s, t)).isSome = true ↔ ∃ links, g.Route s links t := by
    have h := hspec (s, t)
    cases hr : result (s, t) with
    | none =>
      rw [hr] at h
      exact ⟨fun hsome => by simp at hsome, fun ⟨links, hroute⟩ => (h links hroute).elim⟩
    | some found =>
      rw [hr] at h
      obtain ⟨links, hroute, -⟩ := h
      exact ⟨fun _ => ⟨links, hroute⟩, fun _ => rfl⟩
  have hreports : s ∈ g.spaces ∧ t ∈ g.spaces → matrix.lookup (s, t) = (result (s, t)).map Prod.fst := by
    intro hmem
    rw [hlookup, if_pos hmem]
    cases hr : result (s, t) with
    | some found => rfl
    | none =>
      -- an older entry would need a route
      by_contra hne
      obtain ⟨-, -, hroute⟩ := hg.swept s t (AList.lookup_isSome.mp (Option.isSome_iff_ne_none.mpr hne))
      simpa [hr] using hreach.mpr hroute
  have hstale : ¬ (s ∈ g.spaces ∧ t ∈ g.spaces) → matrix.lookup (s, t) = none := by
    intro hmem
    rw [hlookup, if_neg hmem, transferCost]
    by_contra hne
    obtain ⟨hs, ht, -⟩ := hg.swept s t (AList.lookup_isSome.mp (Option.isSome_iff_ne_none.mpr hne))
    exact hmem ⟨hs, ht⟩
  refine ⟨result (s, t), hresult (s, t), hreach, ?_, _, hg', hresult (s, t), ?_, ?_, rfl⟩
  · intro cost path heq
    have h := hspec (s, t)
    rw [heq] at h
    obtain ⟨links, hroute, hpath, hnodup, hleast⟩ := h
    exact ⟨links, hroute, hpath, hnodup, (hleast hfit).2, (hleast hfit).1⟩
  · intro cost hcost
    by_cases hmem : s ∈ g.spaces ∧ t ∈ g.spaces
    · exact (hreports hmem).symm.trans hcost
    · exact absurd ((hstale hmem).symm.trans hcost) (by simp)
  · intro hst
    by_cases hmem : s ∈ g.spaces ∧ t ∈ g.spaces
    · exact hreports hmem
    have hne : s ≠ t := fun heq => hst.elim (fun h => h heq) fun hs => hmem ⟨hs, heq ▸ hs⟩
    have hnone : ¬ ∃ links, g.Route s links t := fun ⟨links, hroute⟩ => hmem (hroute.mem_spaces hne)
    have hr : result (s, t) = none := by simpa using mt hreach.mp hnone
    rw [hr]
    exact hstale hmem

theorem Route.passed_subset {s t : MemorySpace} {links : List Link} (h : g.Route s links t) :
    passed s links ⊆ s :: g.spaces := by
  induction h with
  | nil => simp [passed]
  | snoc _ declared ih =>
    rw [passed_append]
    refine List.append_subset.mpr ⟨ih, ?_⟩
    simpa using .inr (mem_spaces_of_declared declared).2

theorem Route.declared {s t : MemorySpace} {links : List Link} (h : g.Route s links t) :
    ∀ link ∈ links, g.Declared link := by
  induction h with
  | nil => simp
  | snoc _ declared ih => exact List.forall_mem_append.mpr ⟨ih, by simpa using declared⟩

theorem totalsFit_of_le (weight attos : ℕ) (hweight : ∀ link, g.Declared link → link.weight.val ≤ weight)
    (hattos : ∀ link, g.Declared link → ((g.price link).getD 0).val ≤ attos)
    (hweights : g.spaces.length * weight < 2 ^ 32) (hprices : g.spaces.length * attos < 2 ^ 64) : g.TotalsFit := by
  intro s links t hroute hsimple
  have hlength : links.length ≤ g.spaces.length := by
    simpa [passed] using (subperm_of_subset hsimple hroute.passed_subset).length_le
  have hbound : ∀ (f : Link → ℕ) (bound : ℕ), (∀ link, g.Declared link → f link ≤ bound) →
      (links.map f).sum ≤ g.spaces.length * bound := by
    intro f bound hf
    calc (links.map f).sum ≤ (links.map f).length • bound :=
          sum_le_card_nsmul _ _ (by simpa using fun link hlink => hf link (hroute.declared link hlink))
      _ ≤ g.spaces.length * bound := by simpa using Nat.mul_le_mul_right bound hlength
  exact ⟨(hbound _ attos hattos).trans_lt hprices, (hbound _ weight hweight).trans_lt hweights⟩

theorem totalsFit_standard : standard.TotalsFit := by
  have hedges : ∀ entry ∈ standard.transferEdges.entries, ∀ edge ∈ entry.2, edge.2.val ≤ 300 := by decide
  refine totalsFit_of_le 300 0 (fun link h => ?_) (fun link _ => ?_) (by decide) (by decide)
  · unfold Declared neighbors at h
    cases hlookup : standard.transferEdges.lookup link.source with
    | none => simp [hlookup] at h
    | some ns =>
      rw [hlookup] at h
      exact hedges _ (AList.mem_lookup_iff.mp hlookup) _ h
  · have hnone : standard.routeCost = ∅ := rfl
    simp [price, hnone]

theorem transferPath_least_remote :
    ∃ result, standard.transferPath Dijkstra.PopOrder.first .cpuDram .remoteHbm = .ok result ∧
      (result.isSome = true ↔ ∃ links, standard.Route .cpuDram links .remoteHbm) ∧
      (∀ cost path, result = some (cost, path) → ∃ links, standard.Route .cpuDram links .remoteHbm ∧
        passed .cpuDram links = path ∧ path.Nodup ∧ standard.Least .cpuDram .remoteHbm links ∧
        cost.val = totalWeight links) ∧
      ∃ g', standard.precomputeCosts Dijkstra.PopOrder.first = .ok g' ∧
        g'.transferPath Dijkstra.PopOrder.first .cpuDram .remoteHbm = .ok result ∧
        (∀ cost, g'.transferCost .cpuDram .remoteHbm = some cost → result.map Prod.fst = some cost) ∧
        (MemorySpace.cpuDram ≠ .remoteHbm ∨ MemorySpace.cpuDram ∈ standard.spaces →
          g'.transferCost .cpuDram .remoteHbm = result.map Prod.fst) ∧
        g'.canTransfer .cpuDram .remoteHbm = (g'.transferCost .cpuDram .remoteHbm).isSome :=
  transferPath_least built_standard totalsFit_standard .cpuDram .remoteHbm

/-- No older entry shows after a sweep. -/
theorem Built.precomputed (h : Built order g) : ∃ matrix,
    g.precomputeCosts order = .ok { g with costMatrix := matrix } ∧ ∀ s t, ∃ result, g.transferPath order s t = .ok result ∧
      matrix.lookup (s, t) = if s ∈ g.spaces ∧ t ∈ g.spaces then result.map Prod.fst else none := by
  choose result hresult hspec using fun pair : MemorySpace × MemorySpace => g.transferPath_spec order pair.1 pair.2
  obtain ⟨matrix, hg', hlookup⟩ := precomputeCosts_spec hresult
  refine ⟨matrix, hg', fun s t => ⟨result (s, t), hresult (s, t), ?_⟩⟩
  rw [hlookup, transferCost]
  cases hold : g.costMatrix.lookup (s, t) with
  | none => simp
  | some cost =>
    obtain ⟨hs, ht, links, hroute⟩ := h.swept s t (lookup_isSome.mp (by rw [hold]; rfl))
    have hfound := hspec (s, t)
    cases hr : result (s, t) with
    | some found => simp [hs, ht]
    | none =>
      rw [hr] at hfound
      exact (hfound links hroute).elim

variable (derived : MemorySpace → MemorySpace → Option DerivedCost)

theorem foldl_priceDerived (edges : List (MemorySpace × MemorySpace))
    (matrix : AList fun _ : MemorySpace × MemorySpace => Word 32) :
    edges.foldl (priceDerived derived) { g with costMatrix := matrix } =
      { edges.foldl (priceDerived derived) g with costMatrix := matrix } := by
  induction edges generalizing g with
  | nil => rfl
  | cons edge edges ih =>
    have hstep : priceDerived derived { g with costMatrix := matrix } edge =
        { priceDerived derived g edge with costMatrix := matrix } := by
      unfold priceDerived
      split <;> rfl
    rw [foldl_cons, hstep, ih, foldl_cons]

theorem resolved_of_built (h : Built order g) : ∃ once twice, g.resolveDerivedRouteCosts order derived = .ok once ∧
    (do resolveDerivedRouteCosts order derived (← g.precomputeCosts order)) = .ok twice ∧
    ∀ s t, twice.transferCost s t = once.transferCost s t ∧
      twice.transferPath order s t = once.transferPath order s t := by
  have hprice {g' : TransferCostGraph} (h : Built order g') :=
    (h.foldl (fun edge h => h.priceDerived derived edge) g.derivedEdges).precomputed
  obtain ⟨matrix, hswept, -⟩ := h.precomputed
  obtain ⟨_, honce, hlookup⟩ := hprice h
  obtain ⟨last, htwice, hlookup'⟩ := hprice (h.precomputeCosts hswept)
  rw [foldl_priceDerived] at htwice hlookup'
  refine ⟨_, { g.derivedEdges.foldl (priceDerived derived) g with costMatrix := last }, honce, ?_,
    fun s t => ⟨?_, rfl⟩⟩
  · simp only [hswept, bind, Except.bind]
    rw [resolveDerivedRouteCosts, foldl_priceDerived]
    exact htwice
  · obtain ⟨_, hpath, hcost⟩ := hlookup s t
    obtain ⟨_, hpath', hcost'⟩ := hlookup' s t
    cases hpath.symm.trans hpath'
    exact hcost'.trans hcost.symm

variable (order) (topologies : List (List TransferEdge))

/-- The graph of `GlobalAstEnv::build`: the edges are added without a sweep. -/
def envGraph : Except Failure TransferCostGraph := do
  resolveDerivedRouteCosts order derived (topologies.foldl applyDescriptorEdges (← default order))

theorem redundant_sweep_changes_nothing : ∃ once twice, envGraph order derived topologies = .ok once ∧
    (do resolveDerivedRouteCosts order derived (← seedFromTopologies order (← default order) topologies)) = .ok twice ∧
    ∀ s t, twice.transferCost s t = once.transferCost s t ∧
      twice.transferPath order s t = once.transferPath order s t := by
  obtain ⟨g, hdefault, hg⟩ : ∃ g, default order = .ok g ∧ Built order g := by
    obtain ⟨_, hswept, -⟩ := built_standard.precomputed
    exact ⟨_, hswept, built_standard.precomputeCosts hswept⟩
  obtain ⟨once, twice, honce, htwice, hanswers⟩ := resolved_of_built derived
    (hg.foldl (fun transfers h => h.applyDescriptorEdges transfers) topologies)
  refine ⟨once, twice, ?_, ?_, hanswers⟩
  · simpa only [envGraph, hdefault, bind, Except.bind] using honce
  · simpa only [hdefault, seedFromTopologies, bind, Except.bind] using htwice

end Vx.Routes.TransferCostGraph
