import Vx.Graphs.Selection
import Vx.Lib.SpanningTree

namespace Vx.Graphs

open Finset
open Lib.MachineInt Lib.SpanningTree

section
variable (g : Graph)

structure Growth where
  inmst : Fin g.n → Bool
  key : Fin g.n → ℤ
  total : ℤ

def lowerKey (u : Fin g.n) (inmst : Fin g.n → Bool) (key : Fin g.n → ℤ) (v : Fin g.n) : Fin g.n → ℤ :=
  let w := g.weight u v
  if w ≠ 0 then
    if inmst v = false then
      if w < key v then Function.update key v w else key
    else key
  else key

def primRound (σ : Growth g) (u : Fin g.n) : Growth g :=
  let inmst := Function.update σ.inmst u true
  { inmst
    total := toI32 (σ.total + σ.key u)
    key := (List.finRange g.n).foldl (lowerKey g u inmst) σ.key }

def primLoop : ℕ → Growth g → Growth g
  | 0, σ => σ
  | k + 1, σ =>
    match pick σ.inmst σ.key with
    | none => σ
    | some u => primLoop k (primRound g σ u)

def primMstWeight (h : 0 < g.n) : ℤ :=
  (primLoop g g.n ⟨fun _ => false, Function.update (fun _ => graphInf) ⟨0, h⟩ 0, 0⟩).total

end

def Undirected (g : Graph) : Prop := ∀ u v, g.weight u v = g.weight v u

def Graph.simple (g : Graph) (h : Undirected g) : SimpleGraph (Fin g.n) where
  Adj u v := u ≠ v ∧ g.weight u v ≠ 0
  symm := ⟨fun u v huv => ⟨huv.1.symm, by rw [← h u v]; exact huv.2⟩⟩
  loopless := ⟨fun u hu => hu.1 rfl⟩

def Graph.pairWeight (g : Graph) (h : Undirected g) : Sym2 (Fin g.n) → ℤ := Sym2.lift ⟨g.weight, h⟩

section
variable {g : Graph}

theorem lowerKey_foldl (u : Fin g.n) (inmst : Fin g.n → Bool) (l : List (Fin g.n)) (key : Fin g.n → ℤ) (v : Fin g.n) :
    l.foldl (lowerKey g u inmst) key v =
      if v ∈ l ∧ g.weight u v ≠ 0 ∧ inmst v = false then min (key v) (g.weight u v) else key v := by
  induction l generalizing key with
  | nil => simp
  | cons x l ih =>
    rw [List.foldl_cons, ih]
    by_cases hx : v = x
    · subst hx
      by_cases hstep : g.weight u v ≠ 0 ∧ inmst v = false
      · have hkey : lowerKey g u inmst key v v = min (key v) (g.weight u v) := by
          unfold lowerKey
          rw [if_pos hstep.1, if_pos hstep.2]
          by_cases hlt : g.weight u v < key v
          · rw [if_pos hlt, Function.update_self, min_eq_right hlt.le]
          · rw [if_neg hlt, min_eq_left (not_lt.1 hlt)]
        simp [hkey, hstep]
      · have hkey : lowerKey g u inmst key v = key := by
          unfold lowerKey
          grind
        rw [hkey, if_neg (fun h => hstep h.2), if_neg (fun h => hstep h.2)]
    · have hkey : lowerKey g u inmst key x v = key v := by
        unfold lowerKey
        split_ifs <;> simp [Function.update_of_ne hx]
      simp only [hkey, List.mem_cons, hx, false_or]

theorem primRound_key (σ : Growth g) (u v : Fin g.n) : (primRound g σ u).key v =
      if g.weight u v ≠ 0 ∧ (primRound g σ u).inmst v = false then min (σ.key v) (g.weight u v) else σ.key v := by
  have hkey : (primRound g σ u).key v = (List.finRange g.n).foldl (lowerKey g u (primRound g σ u).inmst) σ.key v := rfl
  rw [hkey, lowerKey_foldl]
  simp only [List.mem_finRange, true_and]

theorem primRound_inmst (σ : Growth g) (u v : Fin g.n) :
    (primRound g σ u).inmst v = true ↔ v = u ∨ σ.inmst v = true := by
  by_cases hv : v = u
  · simp [primRound, hv]
  · simp [primRound, hv]

variable (hg : Undirected g)

def Growth.nodes (σ : Growth g) : Finset (Fin g.n) := Finset.univ.filter fun v => σ.inmst v = true

/-- What holds once the tree has its first node: its edges are those of a least spanning tree that lie inside, and the
key of a node outside is the weight of its lightest edge to the tree. -/
structure Grown (σ : Growth g) (F : Finset (Sym2 (Fin g.n))) : Prop where
  part : ∃ T, Minimum (g.simple hg) (g.pairWeight hg) T ∧ F ⊆ edges T
  inner : ∀ a b, s(a, b) ∈ F → σ.inmst a = true ∧ σ.inmst b = true
  card : F.card + 1 = σ.nodes.card
  sum : σ.total = toI32 (∑ e ∈ F, g.pairWeight hg e)
  key_le : ∀ a b, σ.inmst a = true → σ.inmst b = false → g.weight a b ≠ 0 → σ.key b ≤ g.weight a b
  lightest : ∀ b, σ.inmst b = false → σ.key b = graphInf ∨
    ∃ a, σ.inmst a = true ∧ g.weight a b ≠ 0 ∧ σ.key b = g.weight a b

theorem pairWeight_mk (u v : Fin g.n) : g.pairWeight hg s(u, v) = g.weight u v := rfl

variable {σ : Growth g} {v : Fin g.n}

theorem Growth.mem_nodes : v ∈ σ.nodes ↔ σ.inmst v = true := by
  simp [Growth.nodes]

theorem nodes_primRound (σ : Growth g) (u : Fin g.n) : (primRound g σ u).nodes = insert u σ.nodes := by
  ext v
  rw [Finset.mem_insert, Growth.mem_nodes, Growth.mem_nodes, primRound_inmst]

variable {u : Fin g.n}

theorem card_primRound (hu : σ.inmst u = false) : (primRound g σ u).nodes.card = σ.nodes.card + 1 := by
  rw [nodes_primRound, card_insert_of_notMem]
  rw [Growth.mem_nodes, hu]
  decide

theorem outside_primRound (hv : (primRound g σ u).inmst v = false) : v ≠ u ∧ σ.inmst v = false := by
  have hnot : ¬ (v = u ∨ σ.inmst v = true) := by
    rw [← primRound_inmst, hv]
    decide
  rw [not_or, Bool.not_eq_true] at hnot
  exact hnot

variable {hg}

theorem primRound_keys (hle : ∀ a b, σ.inmst a = true → σ.inmst b = false → g.weight a b ≠ 0 → σ.key b ≤ g.weight a b)
    (hlight : ∀ b, σ.inmst b = false → b ≠ u → σ.key b = graphInf ∨
      ∃ a, σ.inmst a = true ∧ g.weight a b ≠ 0 ∧ σ.key b = g.weight a b) (hinf : ∀ v, u ≠ v → g.weight u v < graphInf) :
    (∀ a b, (primRound g σ u).inmst a = true → (primRound g σ u).inmst b = false → g.weight a b ≠ 0 →
      (primRound g σ u).key b ≤ g.weight a b) ∧
    ∀ b, (primRound g σ u).inmst b = false → (primRound g σ u).key b = graphInf ∨
      ∃ a, (primRound g σ u).inmst a = true ∧ g.weight a b ≠ 0 ∧ (primRound g σ u).key b = g.weight a b := by
  have hu : (primRound g σ u).inmst u = true := (primRound_inmst σ u u).2 (.inl rfl)
  constructor
  · intro a b ha hb hw
    obtain ⟨-, hbold⟩ := outside_primRound hb
    rw [primRound_key]
    rcases (primRound_inmst σ u a).1 ha with rfl | hold
    · rw [if_pos ⟨hw, hb⟩]
      exact min_le_right _ _
    have hbefore := hle a b hold hbold hw
    split_ifs
    · exact (min_le_left _ _).trans hbefore
    · exact hbefore
  · intro b hb
    obtain ⟨hbu, hbold⟩ := outside_primRound hb
    rw [primRound_key]
    by_cases hw : g.weight u b = 0
    · rw [if_neg (fun h => h.1 hw)]
      refine (hlight b hbold hbu).imp_right ?_
      rintro ⟨a, ha, hab⟩
      exact ⟨a, (primRound_inmst σ u a).2 (.inr ha), hab⟩
    · rw [if_pos ⟨hw, hb⟩]
      rcases hlight b hbold hbu with hkey | ⟨a, ha, hab, hkey⟩
      · right
        refine ⟨u, hu, hw, ?_⟩
        rw [hkey]
        exact min_eq_right (hinf b hbu.symm).le
      · right
        rcases min_choice (σ.key b) (g.weight u b) with hmin | hmin
        · exact ⟨a, (primRound_inmst σ u a).2 (.inr ha), hab, hmin.trans hkey⟩
        · exact ⟨u, hu, hw, hmin⟩

variable (hinf : ∀ u v, (g.simple hg).Adj u v → g.weight u v < graphInf)
include hinf

theorem weight_lt_graphInf (h : u ≠ v) : g.weight u v < graphInf := by
  by_cases hw : g.weight u v = 0
  · rw [hw]
    decide
  · exact hinf u v ⟨h, hw⟩

variable {F : Finset (Sym2 (Fin g.n))}

theorem Grown.round (h : Grown hg σ F) (hpick : pick σ.inmst σ.key = some u) : ∃ F', Grown hg (primRound g σ u) F' := by
  obtain ⟨hu, hlt, hleast⟩ := pick_some hpick
  obtain ⟨p, hp, hw, hkey⟩ := (h.lightest u hu).resolve_left hlt.ne
  obtain ⟨T, hT, hF⟩ := h.part
  have hne : p ≠ u := by
    rintro rfl
    rw [hu] at hp
    cases hp
  have hcut : ∀ a, σ.inmst a = true → ∀ b, ¬ σ.inmst b = true → (g.simple hg).Adj a b →
      g.pairWeight hg s(p, u) ≤ g.pairWeight hg s(a, b) := by
    intro a ha b hb hab
    rw [Bool.not_eq_true] at hb
    rw [pairWeight_mk, pairWeight_mk, ← hkey]
    exact (hleast b hb).trans (h.key_le a b ha hb hab.2)
  have hinner : ∀ a, σ.inmst a = true → ∀ b, ¬ σ.inmst b = true → s(a, b) ∉ F :=
    fun a _ b hb hmem => hb (h.inner a b hmem).2
  have hout : ¬ σ.inmst u = true := by
    rw [hu]
    decide
  obtain ⟨T', hT', hF', hnew⟩ := hT.cut (S := {v | σ.inmst v = true}) hp hout ⟨hne, hw⟩ hcut hF hinner
  have hfresh : s(p, u) ∉ F := hinner p hp u hout
  have hkeys := primRound_keys h.key_le (fun b hb _ => h.lightest b hb) (fun v => weight_lt_graphInf hinf (u := u))
  refine ⟨insert s(p, u) F, ⟨T', hT', insert_subset hnew hF'⟩, ?_, ?_, ?_, hkeys.1, hkeys.2⟩
  · intro a b hmem
    rw [primRound_inmst, primRound_inmst]
    rcases Finset.mem_insert.1 hmem with heq | hold
    · rcases Sym2.eq_iff.1 heq with ⟨rfl, rfl⟩ | ⟨rfl, rfl⟩
      · exact ⟨.inr hp, .inl rfl⟩
      · exact ⟨.inl rfl, .inr hp⟩
    · exact ⟨.inr (h.inner a b hold).1, .inr (h.inner a b hold).2⟩
  · rw [card_insert_of_notMem hfresh, h.card, card_primRound hu]
  · rw [sum_insert hfresh, pairWeight_mk, ← hkey, add_comm]
    have htotal : (primRound g σ u).total = toI32 (σ.total + σ.key u) := rfl
    rw [htotal, h.sum, toI32_add_toI32]

theorem grown_first (hconn : (g.simple hg).Connected) (hn : 0 < g.n)
    (hσ : σ = ⟨fun _ => false, Function.update (fun _ => graphInf) ⟨0, hn⟩ 0, 0⟩) :
    ∃ u, pick σ.inmst σ.key = some u ∧ Grown hg (primRound g σ u) ∅ := by
  have hkey : ∀ v, v ≠ ⟨0, hn⟩ → σ.key v = graphInf := by
    intro v hv
    rw [hσ]
    dsimp only
    rw [Function.update_of_ne hv]
  have hzero : σ.key ⟨0, hn⟩ = 0 := by
    rw [hσ]
    dsimp only
    rw [Function.update_self]
  have hinmst : ∀ v, σ.inmst v = false := by
    intro v
    rw [hσ]
  cases hpick : pick σ.inmst σ.key with
  | none =>
    have hle := pick_none hpick ⟨0, hn⟩ (hinmst _)
    rw [hzero] at hle
    exact absurd hle (by decide)
  | some u =>
    obtain ⟨hu, hlt, -⟩ := pick_some hpick
    have hfirst : u = ⟨0, hn⟩ := by
      by_contra hne
      rw [hkey u hne] at hlt
      exact absurd hlt (lt_irrefl _)
    have hnone : σ.nodes = ∅ := by
      ext v
      simp [Growth.mem_nodes, hinmst v]
    have hkeys := primRound_keys (u := u) (fun a b ha => absurd ha (by rw [hinmst a]; decide))
      (fun b _ hb => .inl (hkey b (hfirst ▸ hb))) (fun v => weight_lt_graphInf hinf (u := u))
    obtain ⟨T, hT⟩ := exists_minimum hconn (g.pairWeight hg)
    refine ⟨u, rfl, ⟨T, hT, empty_subset _⟩, fun a b hmem => absurd hmem (notMem_empty _), ?_, ?_, hkeys.1, hkeys.2⟩
    · rw [card_primRound hu, hnone]
      rfl
    · have htotal : (primRound g σ u).total = toI32 (σ.total + σ.key u) := rfl
      rw [htotal, hfirst, hzero, hσ]
      rfl

theorem Grown.all_of_none (hconn : (g.simple hg).Connected)
    (h : Grown hg σ F) (hpick : pick σ.inmst σ.key = none) : σ.nodes = Finset.univ := by
  by_contra hne
  obtain ⟨v, hv⟩ : ∃ v, v ∉ σ.nodes := by
    by_contra hall
    push Not at hall
    exact hne (Finset.eq_univ_iff_forall.2 hall)
  obtain ⟨u, hu⟩ : σ.nodes.Nonempty := Finset.card_pos.1 (by rw [← h.card]; omega)
  obtain ⟨W⟩ := hconn.preconnected u v
  obtain ⟨d, -, ha, hb⟩ := W.exists_boundary_dart σ.nodes hu hv
  have hina : σ.inmst d.fst = true := Growth.mem_nodes.1 ha
  have houtb : σ.inmst d.snd = false := by
    rw [← Bool.not_eq_true]
    exact fun hin => hb (Growth.mem_nodes.2 hin)
  have hle := h.key_le d.fst d.snd hina houtb d.adj.2
  have hkey := pick_none hpick d.snd houtb
  exact absurd (hinf _ _ d.adj) (not_lt.2 (hkey.trans hle))

theorem primLoop_grown (hconn : (g.simple hg).Connected) (k : ℕ) (h : Grown hg σ F) (hcard : g.n ≤ σ.nodes.card + k) :
    ∃ F', Grown hg (primLoop g k σ) F' ∧ (primLoop g k σ).nodes = Finset.univ := by
  induction k generalizing σ F with
  | zero =>
    refine ⟨F, h, ?_⟩
    apply (card_eq_iff_eq_univ _).1
    apply le_antisymm (card_le_univ _)
    rwa [Fintype.card_fin]
  | succ k ih =>
    rw [primLoop]
    cases hpick : pick σ.inmst σ.key with
    | none => exact ⟨F, h, h.all_of_none hinf hconn hpick⟩
    | some u =>
      obtain ⟨F', hF'⟩ := h.round hinf hpick
      apply ih hF'
      rw [card_primRound (pick_some hpick).1]
      omega

omit hinf in
theorem Grown.complete (h : Grown hg σ F) (hall : σ.nodes = Finset.univ) :
    ∃ T, Minimum (g.simple hg) (g.pairWeight hg) T ∧ σ.total = toI32 (total (g.pairWeight hg) T) := by
  obtain ⟨T, hT, hF⟩ := h.part
  have hcard := h.card
  rw [hall, card_univ] at hcard
  have hspan := hT.toSpanning.card
  rw [Nat.card_eq_fintype_card] at hspan
  have heq : F = edges T := eq_of_subset_of_card_le hF (by omega)
  exact ⟨T, hT, by rw [h.sum, heq, total]⟩

end

theorem prim_least_spanning_tree (g : Graph) (hg : Undirected g) (hn : 0 < g.n)
    (hconn : (g.simple hg).Connected) (hinf : ∀ u v, (g.simple hg).Adj u v → g.weight u v < graphInf)
    (hrange : ∀ T, Minimum (g.simple hg) (g.pairWeight hg) T →
      -2 ^ 31 ≤ total (g.pairWeight hg) T ∧ total (g.pairWeight hg) T < 2 ^ 31) :
    ∃ T, Minimum (g.simple hg) (g.pairWeight hg) T ∧ primMstWeight g hn = total (g.pairWeight hg) T := by
  unfold primMstWeight
  obtain ⟨k, hk⟩ : ∃ k, g.n = k + 1 := ⟨g.n - 1, by omega⟩
  generalize hσ : (⟨fun _ => false, Function.update (fun _ => graphInf) ⟨0, hn⟩ 0, 0⟩ : Growth g) = σ
  obtain ⟨u, hpick, hgrown⟩ := grown_first hinf hconn hn hσ.symm
  have hloop : primLoop g g.n σ = primLoop g k (primRound g σ u) := by
    rw [hk, primLoop, hpick]
  obtain ⟨F, hF, hall⟩ := primLoop_grown hinf hconn k hgrown (by rw [← hgrown.card, hk]; omega)
  obtain ⟨T, hT, htotal⟩ := hF.complete hall
  obtain ⟨hlow, hhigh⟩ := hrange T hT
  refine ⟨T, hT, ?_⟩
  rw [hloop, htotal, toI32_eq hlow hhigh]

def ring : Graph where
  n := 3
  adj := [0, 1, 5, 1, 0, 2, 5, 2, 0]
  size := rfl
  fits := by decide
  words := by decide

theorem ring_undirected : Undirected ring := by
  unfold Undirected
  decide

theorem ring_connected : (ring.simple ring_undirected).Connected := by
  have hadj : ∀ u v : Fin ring.n, u = v ∨ u ≠ v ∧ ring.weight u v ≠ 0 := by decide
  have hne : Nonempty (Fin ring.n) := ⟨(0 : Fin 3)⟩
  refine ⟨fun u v => ?_⟩
  rcases hadj u v with rfl | h
  · exact .refl u
  · exact SimpleGraph.Adj.reachable h

theorem ring_total_in_range {T : SimpleGraph (Fin ring.n)} (hT : Spanning (ring.simple ring_undirected) T) :
    -2 ^ 31 ≤ total (ring.pairWeight ring_undirected) T ∧ total (ring.pairWeight ring_undirected) T < 2 ^ 31 := by
  have hweight : ∀ u v, 0 ≤ ring.weight u v ∧ ring.weight u v ≤ 5 := by decide
  have hpair : ∀ e, 0 ≤ ring.pairWeight ring_undirected e ∧ ring.pairWeight ring_undirected e ≤ 5 := by
    intro e
    induction e with
    | _ u v => exact hweight u v
  have hcard : (edges T).card + 1 = 3 := by
    rw [hT.card, Nat.card_eq_fintype_card]
    rfl
  have hlow : 0 ≤ total (ring.pairWeight ring_undirected) T := sum_nonneg fun e _ => (hpair e).1
  have hhigh : total (ring.pairWeight ring_undirected) T ≤ (edges T).card • (5 : ℤ) :=
    sum_le_card_nsmul _ _ _ fun e _ => (hpair e).2
  rw [show (edges T).card = 2 by omega, two_nsmul] at hhigh
  omega

theorem prim_least_spanning_tree_ring :
    ∃ T, Minimum (ring.simple ring_undirected) (ring.pairWeight ring_undirected) T ∧
      total (ring.pairWeight ring_undirected) T = 3 := by
  have hinf : ∀ u v, ring.weight u v < graphInf := by decide
  obtain ⟨T, hT, htotal⟩ := prim_least_spanning_tree ring ring_undirected (by decide) ring_connected
    (fun u v _ => hinf u v) (fun T hT => ring_total_in_range hT.toSpanning)
  refine ⟨T, hT, ?_⟩
  rw [← htotal]
  decide

end Vx.Graphs
