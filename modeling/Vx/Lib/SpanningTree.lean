import Mathlib

namespace Vx.Lib.SpanningTree

open Finset
open SimpleGraph

variable {V : Type} [Finite V]

noncomputable def edges (T : SimpleGraph V) : Finset (Sym2 V) := (Set.toFinite T.edgeSet).toFinset

noncomputable def total (w : Sym2 V → ℤ) (T : SimpleGraph V) : ℤ := ∑ e ∈ edges T, w e

structure Spanning (G T : SimpleGraph V) : Prop where
  le : T ≤ G
  isTree : T.IsTree

structure Minimum (G : SimpleGraph V) (w : Sym2 V → ℤ) (T : SimpleGraph V) : Prop extends Spanning G T where
  least : ∀ T', Spanning G T' → total w T ≤ total w T'

theorem mem_edges {T : SimpleGraph V} {e : Sym2 V} : e ∈ edges T ↔ e ∈ T.edgeSet := Set.Finite.mem_toFinset _

theorem card_edges (T : SimpleGraph V) : Nat.card T.edgeSet = (edges T).card := by
  rw [Nat.card_coe_set_eq]
  exact Set.ncard_eq_toFinset_card _

theorem Spanning.card {G T : SimpleGraph V} (h : Spanning G T) : (edges T).card + 1 = Nat.card V := by
  rw [← card_edges]
  exact (isTree_iff_connected_and_card.1 h.isTree).2

theorem exists_minimum {G : SimpleGraph V} (h : G.Connected) (w : Sym2 V → ℤ) : ∃ T, Minimum G w T := by
  have hfinite : {T | Spanning G T}.Finite := Set.toFinite _
  obtain ⟨T, hle, htree⟩ := h.exists_isTree_le
  have hne : hfinite.toFinset.Nonempty := ⟨T, hfinite.mem_toFinset.2 ⟨hle, htree⟩⟩
  obtain ⟨M, hM, hleast⟩ := hfinite.toFinset.exists_min_image (total w) hne
  refine ⟨M, hfinite.mem_toFinset.1 hM, ?_⟩
  intro T' hT'
  exact hleast T' (hfinite.mem_toFinset.2 hT')

section
variable {G T : SimpleGraph V} {a b p u : V}

def swap (T : SimpleGraph V) (a b p u : V) : SimpleGraph V := (T ⊔ edge p u).deleteEdges {s(a, b)}

theorem edges_swap [DecidableEq V] (hne : p ≠ u) (hout : s(p, u) ∉ T.edgeSet) (hin : s(a, b) ∈ T.edgeSet) :
    edges (swap T a b p u) = insert s(p, u) ((edges T).erase s(a, b)) := by
  ext e
  rw [mem_edges, swap, edgeSet_deleteEdges, edgeSet_sup, edgeSet_edge_of_ne hne, Finset.mem_insert,
    mem_erase, mem_edges]
  simp only [Set.mem_sdiff, Set.mem_union, Set.mem_singleton_iff]
  constructor
  · rintro ⟨hold | hnew, hkept⟩
    · exact .inr ⟨hkept, hold⟩
    · exact .inl hnew
  · rintro (rfl | ⟨hkept, hold⟩)
    · exact ⟨.inr rfl, fun heq => hout (heq ▸ hin)⟩
    · exact ⟨.inl hold, hkept⟩

omit [Finite V] in
theorem swap_connected (hT : T.IsTree) (hne : p ≠ u) (hout : s(p, u) ∉ T.edgeSet) {W : T.Walk p u}
    (hW : W.IsPath) (hmem : s(a, b) ∈ W.edges) : (swap T a b p u).Connected := by
  have hle : T ≤ T ⊔ edge p u := le_sup_left
  have hconnected : (T ⊔ edge p u).Connected := hT.connected.mono hle
  have hadj : (T ⊔ edge p u).Adj u p := by
    rw [sup_adj, edge_adj]
    exact .inr ⟨.inr ⟨rfl, rfl⟩, hne.symm⟩
  have hcycle : (Walk.cons hadj (W.mapLe hle)).IsCycle := by
    rw [Walk.cons_isCycle_iff]
    refine ⟨hW.mapLe hle, ?_⟩
    rw [Walk.edges_mapLe_eq_edges, Sym2.eq_swap]
    exact fun hedge => hout (W.edges_subset_edgeSet hedge)
  have hedge : s(a, b) ∈ (Walk.cons hadj (W.mapLe hle)).edges := by
    rw [Walk.edges_cons, Walk.edges_mapLe_eq_edges]
    exact List.mem_cons_of_mem _ hmem
  apply hconnected.connected_delete_edge_of_not_isBridge
  intro hbridge
  have hedgeSet : s(a, b) ∈ (T ⊔ edge p u).edgeSet := Walk.edges_subset_edgeSet _ hedge
  exact (isBridge_iff_forall_cycle_notMem hedgeSet).1 hbridge _ hcycle hedge

theorem swap_spanning (hT : Spanning G T) (hadj : G.Adj p u) (hout : s(p, u) ∉ T.edgeSet) {W : T.Walk p u}
    (hW : W.IsPath) (hmem : s(a, b) ∈ W.edges) : Spanning G (swap T a b p u) := by
  classical
  have hin : s(a, b) ∈ T.edgeSet := W.edges_subset_edgeSet hmem
  refine ⟨?_, isTree_iff_connected_and_card.2 ⟨swap_connected hT.isTree hadj.ne hout hW hmem, ?_⟩⟩
  · have hsup : T ⊔ edge p u ≤ G := sup_le hT.le ((edge_le_iff G).2 (.inr hadj))
    exact (deleteEdges_le _).trans hsup
  have hnew : s(p, u) ∉ (edges T).erase s(a, b) := fun h => hout (mem_edges.1 (mem_of_mem_erase h))
  rw [card_edges, edges_swap hadj.ne hout hin, card_insert_of_notMem hnew, card_erase_add_one (mem_edges.2 hin)]
  exact hT.card

theorem total_swap (w : Sym2 V → ℤ) (hne : p ≠ u) (hout : s(p, u) ∉ T.edgeSet) (hin : s(a, b) ∈ T.edgeSet) :
    total w (swap T a b p u) + w s(a, b) = total w T + w s(p, u) := by
  classical
  have hnew : s(p, u) ∉ (edges T).erase s(a, b) := fun h => hout (mem_edges.1 (mem_of_mem_erase h))
  have herase := sum_erase_add (edges T) w (mem_edges.2 hin)
  rw [total, edges_swap hne hout hin, sum_insert hnew, total]
  omega

end

theorem Minimum.cut {G T : SimpleGraph V} {w : Sym2 V → ℤ} (hT : Minimum G w T) {S : Set V} {p u : V} (hp : p ∈ S)
    (hu : u ∉ S) (hadj : G.Adj p u) (hlight : ∀ a ∈ S, ∀ b, b ∉ S → G.Adj a b → w s(p, u) ≤ w s(a, b))
    {F : Finset (Sym2 V)} (hF : F ⊆ edges T) (hinner : ∀ a ∈ S, ∀ b, b ∉ S → s(a, b) ∉ F) :
    ∃ T', Minimum G w T' ∧ F ⊆ edges T' ∧ s(p, u) ∈ edges T' := by
  classical
  by_cases hmem : s(p, u) ∈ T.edgeSet
  · exact ⟨T, hT, hF, mem_edges.2 hmem⟩
  obtain ⟨W, hW⟩ := (hT.isTree.connected.preconnected p u).exists_isPath
  obtain ⟨d, hd, ha, hb⟩ := W.exists_boundary_dart S hp hu
  have hedge : s(d.fst, d.snd) ∈ W.edges := List.mem_map.2 ⟨d, hd, rfl⟩
  have hin : s(d.fst, d.snd) ∈ T.edgeSet := W.edges_subset_edgeSet hedge
  have hspan := swap_spanning hT.toSpanning hadj hmem hW hedge
  have htotal := total_swap w hadj.ne hmem hin
  have hle := hlight d.fst ha d.snd hb (hT.le d.adj)
  refine ⟨swap T d.fst d.snd p u, ⟨hspan, ?_⟩, ?_, ?_⟩
  · intro T' hT'
    have hleast := hT.least T' hT'
    omega
  · intro e he
    rw [edges_swap hadj.ne hmem hin, Finset.mem_insert, mem_erase]
    refine .inr ⟨?_, hF he⟩
    rintro rfl
    exact hinner d.fst ha d.snd hb he
  · rw [edges_swap hadj.ne hmem hin]
    exact mem_insert_self _ _

end Vx.Lib.SpanningTree
