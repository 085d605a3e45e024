import Vx.Graphs.Selection
import Vx.Lib.Relaxation
import Vx.Lib.Walks

namespace Vx.Graphs

open List Finset Function
open Lib.MachineInt Lib.Relaxation Lib.Walks

section
variable {g : Graph}

def Reaches (g : Graph) (src v : Fin g.n) (c : ℤ) : Prop := ∃ p, Walk g.edge src p v c

def Joins (g : Graph) (ends : Fin g.n × Fin g.n) (c : ℤ) : Prop := ∃ p, Walk g.edge ends.1 p ends.2 c

variable {u v : Fin g.n}

theorem edge_eq_some {x : ℤ} (h : g.edge u v = some x) : g.weight u v = x ∧ x ≠ 0 := by
  unfold Graph.edge at h
  split at h
  case isTrue => cases h
  case isFalse hne =>
    cases h
    exact ⟨rfl, hne⟩

theorem edge_of_ne (h : g.weight u v ≠ 0) : g.edge u v = some (g.weight u v) := if_neg h

theorem sound_initial (src : Fin g.n) : Sound graphInf (Reaches g src) (initial g src) := by
  intro v
  unfold initial
  by_cases hv : v = src
  · subst hv
    rw [update_self]
    exact ⟨by decide, .inr ⟨[], .nil v⟩⟩
  · rw [update_of_ne hv]
    exact ⟨le_rfl, .inl rfl⟩

theorem initial_src (src : Fin g.n) : initial g src src = 0 := update_self ..

def edgeRule (g : Graph) (u v : Fin g.n) : Rule (Fin g.n) where
  target := v
  value d := if d u < graphInf then (g.edge u v).map fun x => d u + x else none

variable {d : Fin g.n → ℤ}

theorem edgeRule_value {c : ℤ} (h : (edgeRule g u v).value d = some c) :
    d u < graphInf ∧ ∃ x, g.edge u v = some x ∧ c = d u + x := by
  unfold edgeRule at h
  dsimp only at h
  split at h
  case isTrue hlt =>
    obtain ⟨x, hx, rfl⟩ := Option.map_eq_some_iff.1 h
    exact ⟨hlt, x, hx, rfl⟩
  case isFalse => cases h

theorem edgeRule_of_edge {x : ℤ} (hlt : d u < graphInf)
    (hx : g.edge u v = some x) : (edgeRule g u v).value d = some (d u + x) := by
  simp [edgeRule, hlt, hx]

theorem Sound.reaches {src : Fin g.n} (hd : Sound graphInf (Reaches g src) d)
    (hlt : d u < graphInf) : Reaches g src u (d u) :=
  (hd u).2.resolve_left hlt.ne

theorem edgeRule_lawful (src u v : Fin g.n) : Lawful graphInf (Reaches g src) (edgeRule g u v) where
  valid d c hd hc := by
    obtain ⟨hlt, x, hx, rfl⟩ := edgeRule_value hc
    obtain ⟨p, hp⟩ := Sound.reaches hd hlt
    exact ⟨p ++ [v], hp.append (.edge hx)⟩
  mono d d' c hle hc := by
    obtain ⟨hlt, x, hx, rfl⟩ := edgeRule_value hc
    have hu := hle u
    exact ⟨d' u + x, edgeRule_of_edge (hu.trans_lt hlt) hx, by omega⟩

def detourRule (g : Graph) (k i j : Fin g.n) : Rule (Fin g.n × Fin g.n) where
  target := (i, j)
  value d := if d (i, k) < graphInf ∧ d (k, j) < graphInf then some (d (i, k) + d (k, j)) else none

variable {d : Fin g.n × Fin g.n → ℤ}

theorem detourRule_value {k i j : Fin g.n} {c : ℤ} (h : (detourRule g k i j).value d = some c) :
    d (i, k) < graphInf ∧ d (k, j) < graphInf ∧ c = d (i, k) + d (k, j) := by
  unfold detourRule at h
  dsimp only at h
  split at h
  case isTrue hlt =>
    cases h
    exact ⟨hlt.1, hlt.2, rfl⟩
  case isFalse => cases h

theorem detourRule_of_lt {k i j : Fin g.n} (hik : d (i, k) < graphInf)
    (hkj : d (k, j) < graphInf) : (detourRule g k i j).value d = some (d (i, k) + d (k, j)) := if_pos ⟨hik, hkj⟩

theorem Sound.joins {ends : Fin g.n × Fin g.n} (hd : Sound graphInf (Joins g) d)
    (hlt : d ends < graphInf) : Joins g ends (d ends) :=
  (hd ends).2.resolve_left hlt.ne

theorem detourRule_lawful (k i j : Fin g.n) : Lawful graphInf (Joins g) (detourRule g k i j) where
  valid d c hd hc := by
    obtain ⟨hik, hkj, rfl⟩ := detourRule_value hc
    obtain ⟨p, hp⟩ := Sound.joins hd hik
    obtain ⟨q, hq⟩ := Sound.joins hd hkj
    exact ⟨p ++ q, hp.append hq⟩
  mono d d' c hle hc := by
    obtain ⟨hik, hkj, rfl⟩ := detourRule_value hc
    have h₁ := hle (i, k)
    have h₂ := hle (k, j)
    exact ⟨_, detourRule_of_lt (h₁.trans_lt hik) (h₂.trans_lt hkj), add_le_add h₁ h₂⟩

variable (hb : Bounded g.edge (-2 ^ 31) graphInf) (hc : NoNegativeCycle g.edge)
include hb hc

theorem toI32_walk {a b : Fin g.n} {p : List (Fin g.n)} {t : ℤ} (h : Walk g.edge a p b t)
    (ht : t < 2 * graphInf) : toI32 t = t := by
  have hlow := hb.le_walk hc h
  have hinf : graphInf = 1000000000 := rfl
  exact toI32_eq hlow (by omega)

variable {src : Fin g.n} {d : Fin g.n → ℤ}

theorem relaxKnown_eq (hd : Sound graphInf (Reaches g src) d) (u v : Fin g.n) :
    relaxKnown g u d v = (edgeRule g u v).apply d := by
  unfold relaxKnown Rule.apply
  by_cases hw : g.weight u v = 0
  · have hedge : g.edge u v = none := if_pos hw
    simp [hw, edgeRule, hedge]
  have hedge := edge_of_ne hw
  by_cases hu : d u = graphInf
  · simp [hu, edgeRule]
  have hlt : d u < graphInf := lt_of_le_of_ne (hd u).1 hu
  obtain ⟨p, hp⟩ := Sound.reaches hd hlt
  have hsum : toI32 (d u + g.weight u v) = d u + g.weight u v := by
    apply toI32_walk hb hc (hp.append (.edge hedge))
    have hx := hb.edge_lt u v _ hedge
    omega
  rw [if_pos hw, if_pos hu, hsum, edgeRule_of_edge hlt hedge]
  rfl

theorem relaxKnown_relaxes (u v : Fin g.n) (hd : Sound graphInf (Reaches g src) d) :
    Relaxes graphInf (Reaches g src) {edgeRule g u v} d (relaxKnown g u d v) := by
  rw [relaxKnown_eq hb hc hd]
  exact .apply (edgeRule_lawful src u v) hd

theorem relaxRow_relaxes (u : Fin g.n) (hd : Sound graphInf (Reaches g src) d) :
    Relaxes graphInf (Reaches g src) {r | ∃ v, r = edgeRule g u v} d
      ((List.finRange g.n).foldl (relaxKnown g u) d) := by
  have hloop := Relaxes.foldl (relaxKnown g u) (fun v => {edgeRule g u v})
    (by rintro v r rfl; exact edgeRule_lawful src u v) (fun v d hd => relaxKnown_relaxes hb hc u v hd)
    (List.finRange g.n) hd
  apply hloop.mono
  rintro r ⟨v, rfl⟩
  exact ⟨v, mem_finRange v, rfl⟩

theorem detour_eq {d : Fin g.n × Fin g.n → ℤ} (hd : Sound graphInf (Joins g) d) (k i j : Fin g.n) :
    detour g k i d j = (detourRule g k i j).apply d := by
  unfold detour Rule.apply
  by_cases hik : d (i, k) = graphInf
  · simp [hik, detourRule]
  by_cases hkj : d (k, j) = graphInf
  · simp [hkj, detourRule]
  have hltik : d (i, k) < graphInf := lt_of_le_of_ne (hd _).1 hik
  have hltkj : d (k, j) < graphInf := lt_of_le_of_ne (hd _).1 hkj
  obtain ⟨p, hp⟩ := Sound.joins hd hltik
  obtain ⟨q, hq⟩ := Sound.joins hd hltkj
  have hsum : toI32 (d (i, k) + d (k, j)) = d (i, k) + d (k, j) := toI32_walk hb hc (hp.append hq) (by omega)
  rw [if_pos hik, if_pos hkj, hsum, detourRule_of_lt hltik hltkj]
  rfl

theorem bellmanFordRound_relaxes (hd : Sound graphInf (Reaches g src) d) :
    Relaxes graphInf (Reaches g src) {r | ∃ u v, r = edgeRule g u v} d (bellmanFordRound g d) := by
  have hloop := Relaxes.foldl (fun d u => (List.finRange g.n).foldl (relaxKnown g u) d)
    (fun u => {r | ∃ v, r = edgeRule g u v}) (by rintro u r ⟨v, rfl⟩; exact edgeRule_lawful src u v)
    (fun u d hd => relaxRow_relaxes hb hc u hd) (List.finRange g.n) hd
  apply hloop.mono
  rintro r ⟨u, v, rfl⟩
  exact ⟨u, mem_finRange u, v, rfl⟩

theorem floydWarshallRound_relaxes (k : Fin g.n) {d : Fin g.n × Fin g.n → ℤ} (hd : Sound graphInf (Joins g) d) :
    Relaxes graphInf (Joins g) {r | ∃ i j, r = detourRule g k i j} d (floydWarshallRound g d k) := by
  have hrow (i : Fin g.n) (d : Fin g.n × Fin g.n → ℤ) (hd : Sound graphInf (Joins g) d) :
      Relaxes graphInf (Joins g) {r | ∃ j, r = detourRule g k i j} d ((List.finRange g.n).foldl (detour g k i) d) := by
    have hloop := Relaxes.foldl (detour g k i) (fun j => {detourRule g k i j})
      (by rintro j r rfl; exact detourRule_lawful k i j)
      (fun j d hd => by rw [detour_eq hb hc hd]; exact .apply (detourRule_lawful k i j) hd) (List.finRange g.n) hd
    apply hloop.mono
    rintro r ⟨j, rfl⟩
    exact ⟨j, mem_finRange j, rfl⟩
  have hloop := Relaxes.foldl (fun d i => (List.finRange g.n).foldl (detour g k i) d)
    (fun i => {r | ∃ j, r = detourRule g k i j}) (by rintro i r ⟨j, rfl⟩; exact detourRule_lawful k i j)
    hrow (List.finRange g.n) hd
  apply hloop.mono
  rintro r ⟨i, j, rfl⟩
  exact ⟨i, mem_finRange i, j, rfl⟩

end

section
variable {g : Graph} (hb : Bounded g.edge (-2 ^ 31) graphInf) (hc : NoNegativeCycle g.edge)
include hb hc

theorem bellmanFord_rounds (src : Fin g.n) (k : ℕ) :
    Sound graphInf (Reaches g src) ((bellmanFordRound g)^[k] (initial g src)) ∧
      ∀ p v c, Path g.edge src p v c → p.length ≤ k → (bellmanFordRound g)^[k] (initial g src) v ≤ c := by
  induction k with
  | zero =>
    refine ⟨sound_initial src, ?_⟩
    intro p v c hp hlen
    rw [eq_nil_of_length_eq_zero (Nat.le_zero.1 hlen)] at hp
    obtain ⟨rfl, rfl⟩ := hp.walk.nil_inv
    exact (initial_src src).le
  | succ k ih =>
    obtain ⟨hsound, hbelow⟩ := ih
    rw [iterate_succ_apply']
    have hround := bellmanFordRound_relaxes hb hc hsound
    refine ⟨hround.sound, ?_⟩
    intro p v c hp hlen
    rcases eq_nil_or_concat p with rfl | ⟨q, w, rfl⟩
    · exact (hround.lower v).trans (hbelow [] v c hp (Nat.zero_le k))
    rw [concat_eq_append] at hp hlen
    obtain ⟨rfl, u, t, x, hq, hx, rfl⟩ := hp.concat_inv
    rw [length_append, length_singleton] at hlen
    have hu := hbelow q u t hq (by omega)
    have hlt := hu.trans_lt (hb.path_lt src q u t hq)
    have hw := hround.relaxed _ ⟨u, w, rfl⟩ _ (edgeRule_of_edge hlt hx)
    exact hw.trans (by omega)

theorem bellmanFord_shortest (src dst : Fin g.n) : Shortest g.edge graphInf src dst (bellmanFord g src dst) := by
  obtain ⟨hsound, hbelow⟩ := bellmanFord_rounds hb hc src (g.n - 1)
  apply shortest_of_bounds hb hc (hsound dst).2
  intro q c hq
  apply hbelow q dst c hq
  have hlen := hq.length_lt
  rw [Fintype.card_fin] at hlen
  omega

end

section
variable {g : Graph}

theorem sound_matrix (hb : Bounded g.edge (-2 ^ 31) graphInf) : Sound graphInf (Joins g) (matrix g) := by
  rintro ⟨i, j⟩
  unfold matrix
  dsimp only
  by_cases hij : i = j
  · subst hij
    rw [if_pos rfl]
    exact ⟨by decide, .inr ⟨[], .nil i⟩⟩
  · rw [if_neg hij]
    by_cases hw : g.weight i j = 0
    · simp [hw]
    · have hedge := edge_of_ne hw
      rw [if_pos hw]
      exact ⟨(hb.edge_lt i j _ hedge).le, .inr ⟨[j], .edge hedge⟩⟩

def Within (inner : List (Fin g.n)) (d : Fin g.n × Fin g.n → ℤ) : Prop :=
  ∀ i p j c, Path g.edge i (p ++ [j]) j c → p ⊆ inner → d (i, j) ≤ c

theorem within_matrix : Within [] (matrix g) := by
  intro i p j c hp hsub
  have hnil : p = [] := List.subset_nil.1 hsub
  subst hnil
  obtain ⟨-, u, t, x, hq, hx, rfl⟩ := hp.concat_inv
  obtain ⟨rfl, rfl⟩ := hq.walk.nil_inv
  have hne : i ≠ j := by
    rintro rfl
    exact absurd List.mem_cons_self (List.nodup_cons.1 hp.nodup).1
  obtain ⟨hw, hx0⟩ := edge_eq_some hx
  simp [matrix, hne, hw, hx0]

variable {d : Fin g.n × Fin g.n → ℤ}

theorem Within.round (hb : Bounded g.edge (-2 ^ 31) graphInf) (hc : NoNegativeCycle g.edge)
    {inner : List (Fin g.n)} (hd : Sound graphInf (Joins g) d) (h : Within inner d)
    (k : Fin g.n) : Within (inner ++ [k]) (floydWarshallRound g d k) := by
  have hround := floydWarshallRound_relaxes hb hc k hd
  intro i p j c hp hsub
  by_cases hk : k ∈ p
  · -- the path passes `k` once, between two paths whose inner nodes are in the list
    obtain ⟨p₁, p₂, rfl⟩ := append_of_mem hk
    have hnodup : (p₁ ++ k :: p₂).Nodup := (List.nodup_append.1 (List.nodup_cons.1 hp.nodup).2).1
    obtain ⟨-, hright, hdisjoint⟩ := List.nodup_append.1 hnodup
    rw [append_assoc, cons_append] at hp
    obtain ⟨t₁, t₂, h₁, h₂, rfl⟩ := hp.split_at
    have hsub₁ : p₁ ⊆ inner := by
      intro x hx
      have hmem := hsub (mem_append_left _ hx)
      rcases List.mem_append.1 hmem with hin | hlast
      · exact hin
      · exact absurd (List.mem_singleton.1 hlast) (hdisjoint x hx k List.mem_cons_self)
    have hsub₂ : p₂ ⊆ inner := by
      intro x hx
      have hmem := hsub (mem_append_right _ (List.mem_cons_of_mem _ hx))
      rcases List.mem_append.1 hmem with hin | hlast
      · exact hin
      · rw [List.mem_singleton.1 hlast] at hx
        exact absurd hx (List.nodup_cons.1 hright).1
    have hik := h i p₁ k t₁ h₁ hsub₁
    have hkj := h k p₂ j t₂ h₂ hsub₂
    have hltik := hik.trans_lt (hb.path_lt _ _ _ _ h₁)
    have hltkj := hkj.trans_lt (hb.path_lt _ _ _ _ h₂)
    have hij := hround.relaxed _ ⟨i, j, rfl⟩ _ (detourRule_of_lt hltik hltkj)
    exact hij.trans (add_le_add hik hkj)
  · have hin : p ⊆ inner := by
      intro x hx
      rcases List.mem_append.1 (hsub hx) with hin | hlast
      · exact hin
      · rw [List.mem_singleton.1 hlast] at hx
        exact absurd hx hk
    exact (hround.lower _).trans (h i p j c hp hin)

variable (hb : Bounded g.edge (-2 ^ 31) graphInf) (hc : NoNegativeCycle g.edge)
include hb hc

theorem floydWarshall_rounds (l inner : List (Fin g.n)) (hd : Sound graphInf (Joins g) d) (h : Within inner d) :
    Sound graphInf (Joins g) (l.foldl (floydWarshallRound g) d) ∧
      Within (inner ++ l) (l.foldl (floydWarshallRound g) d) ∧
      ∀ ends, l.foldl (floydWarshallRound g) d ends ≤ d ends := by
  induction l generalizing inner d with
  | nil => exact ⟨hd, by rwa [append_nil], fun _ => le_rfl⟩
  | cons k l ih =>
    have hround := floydWarshallRound_relaxes hb hc k hd
    obtain ⟨hsound, hwithin, hlower⟩ := ih (inner ++ [k]) hround.sound (h.round hb hc hd k)
    rw [append_assoc, singleton_append] at hwithin
    exact ⟨hsound, hwithin, fun ends => (hlower ends).trans (hround.lower ends)⟩

theorem floydWarshall_shortest (src dst : Fin g.n) : Shortest g.edge graphInf src dst (floydWarshall g src dst) := by
  obtain ⟨hsound, hwithin, hlower⟩ := floydWarshall_rounds hb hc (List.finRange g.n) [] (sound_matrix hb) within_matrix
  refine shortest_of_bounds hb hc (a := src) (b := dst) (hsound (src, dst)).2 ?_
  intro q c hq
  rcases eq_nil_or_concat q with rfl | ⟨p, w, rfl⟩
  · obtain ⟨rfl, rfl⟩ := hq.walk.nil_inv
    exact (hlower (src, src)).trans (by simp [matrix])
  · rw [concat_eq_append] at hq
    obtain ⟨rfl, -⟩ := hq.concat_inv
    exact hwithin src p w c hq (fun x _ => mem_finRange x)

end

section
variable {g : Graph}

structure Settled (src : Fin g.n) (σ : Search g) : Prop where
  sound : Sound graphInf (Reaches g src) σ.dist
  start : σ.dist src ≤ 0
  final : ∀ u, σ.done u = true → ∀ c, Reaches g src u c → σ.dist u ≤ c
  relaxed : ∀ u v x, σ.done u = true → g.edge u v = some x → σ.dist v ≤ σ.dist u + x

theorem settled_initial (src : Fin g.n) : Settled src ⟨initial g src, fun _ => false⟩ where
  sound := sound_initial src
  start := (initial_src src).le
  final u hu := by cases hu
  relaxed u v x hu := by cases hu

variable (hpos : ∀ u v x, g.edge u v = some x → 0 ≤ x)
include hpos
variable {src : Fin g.n} {σ : Search g}

theorem Settled.frontier (h : Settled src σ) {a b : Fin g.n} {p : List (Fin g.n)}
    {t base : ℤ} (hwalk : Walk g.edge a p b t) (hbase : σ.dist a ≤ base) :
    (σ.done b = true ∧ σ.dist b ≤ base + t) ∨ ∃ v, σ.done v = false ∧ σ.dist v ≤ base + t := by
  induction hwalk generalizing base with
  | nil a =>
    rw [add_zero]
    cases ha : σ.done a with
    | true => exact .inl ⟨rfl, hbase⟩
    | false => exact .inr ⟨a, ha, hbase⟩
  | @cons a v b p x t hedge hrest ih =>
    have ht := hrest.nonneg hpos
    have hx := hpos a v x hedge
    cases ha : σ.done a with
    | true =>
      have hv := h.relaxed a v x ha hedge
      have hnext := ih (show σ.dist v ≤ base + x by omega)
      rwa [add_assoc] at hnext
    | false => exact .inr ⟨a, ha, by omega⟩

theorem Settled.from_src (h : Settled src σ) {v : Fin g.n} {c : ℤ} (hreach : Reaches g src v c) :
    (σ.done v = true ∧ σ.dist v ≤ c) ∨ ∃ u, σ.done u = false ∧ σ.dist u ≤ c := by
  obtain ⟨p, hp⟩ := hreach
  have hfrontier := h.frontier hpos hp h.start
  rwa [zero_add] at hfrontier

variable (hb : Bounded g.edge (-2 ^ 31) graphInf)
include hb
variable {u : Fin g.n}

theorem relax_foldl (l : List (Fin g.n)) {d : Fin g.n → ℤ}
    (hd : Sound graphInf (Reaches g src) d) (hu : d u < graphInf) :
    l.foldl (relax g u) d = l.foldl (relaxKnown g u) d := by
  induction l generalizing d with
  | nil => rfl
  | cons v l ih =>
    have hsame : relax g u d v = relaxKnown g u d v := by
      unfold relax relaxKnown
      dsimp only
      rw [if_pos hu.ne]
    have hstep := relaxKnown_relaxes hb (noNegativeCycle_of_nonneg hpos) u v hd
    rw [foldl_cons, foldl_cons, hsame]
    exact ih hstep.sound ((hstep.lower u).trans_lt hu)

theorem Settled.round (h : Settled src σ)
    (hpick : pick σ.done σ.dist = some u) : Settled src (dijkstraRound g σ u) := by
  obtain ⟨hu, hlt, hleast⟩ := pick_some hpick
  have hfinal : ∀ c, Reaches g src u c → σ.dist u ≤ c := by
    intro c hc
    rcases h.from_src hpos hc with ⟨hdone, -⟩ | ⟨v, hv, hle⟩
    · rw [hu] at hdone
      cases hdone
    · exact (hleast v hv).trans hle
  have hrow := relaxRow_relaxes hb (noNegativeCycle_of_nonneg hpos) u h.sound
  rw [← relax_foldl hpos hb (List.finRange g.n) h.sound hlt] at hrow
  have hdone : ∀ v, (dijkstraRound g σ u).done v = true → v = u ∨ σ.done v = true := by
    intro v hv
    by_cases hvu : v = u
    · exact .inl hvu
    · right
      have heq : (dijkstraRound g σ u).done v = σ.done v := update_of_ne hvu ..
      rwa [heq] at hv
  have hleave : ∀ v, (dijkstraRound g σ u).done v = true → ∀ c, Reaches g src v c → σ.dist v ≤ c := by
    intro v hv
    rcases hdone v hv with rfl | hold
    · exact hfinal
    · exact h.final v hold
  -- the entry of a node that is done is the weight of its lightest walk, so it stays
  have hkeep : ∀ v, (dijkstraRound g σ u).done v = true → (dijkstraRound g σ u).dist v = σ.dist v := by
    intro v hv
    apply le_antisymm (hrow.lower v)
    rcases (hrow.sound v).2 with hinf | hreach
    · exact ((h.sound v).1).trans hinf.ge
    · exact hleave v hv _ hreach
  refine ⟨hrow.sound, (hrow.lower src).trans h.start, ?_, ?_⟩
  · intro v hv c hreach
    rw [hkeep v hv]
    exact hleave v hv c hreach
  · intro v w x hv hedge
    rw [hkeep v hv]
    rcases hdone v hv with rfl | hold
    · exact hrow.relaxed _ ⟨w, rfl⟩ _ (edgeRule_of_edge hlt hedge)
    · exact (hrow.lower w).trans (h.relaxed v w x hold hedge)

def doneCount (σ : Search g) : ℕ := (Finset.univ.filter fun v => σ.done v = true).card

omit hpos hb in
theorem doneCount_round (hu : σ.done u = false) : doneCount (dijkstraRound g σ u) = doneCount σ + 1 := by
  have hinsert : (Finset.univ.filter fun v => (dijkstraRound g σ u).done v = true) =
      insert u (Finset.univ.filter fun v => σ.done v = true) := by
    ext v
    rw [Finset.mem_filter, Finset.mem_insert, Finset.mem_filter]
    by_cases hv : v = u
    · simp [dijkstraRound, hv]
    · simp [dijkstraRound, hv]
  rw [doneCount, hinsert, card_insert_of_notMem (by simp [hu]), doneCount]

omit hpos hb in
theorem done_of_count (h : g.n ≤ doneCount σ) (v : Fin g.n) : σ.done v = true := by
  have hcard : (Finset.univ.filter fun v => σ.done v = true).card = Fintype.card (Fin g.n) := by
    apply le_antisymm (card_le_univ _)
    rwa [Fintype.card_fin]
  have huniv := (card_eq_iff_eq_univ _).1 hcard
  have hmem : v ∈ Finset.univ.filter fun v => σ.done v = true := by
    rw [huniv]
    exact mem_univ v
  exact (Finset.mem_filter.1 hmem).2

theorem dijkstraLoop_settled (k : ℕ) (h : Settled src σ) (hcount : g.n ≤ doneCount σ + k) :
    Settled src (dijkstraLoop g k σ) ∧
      ∀ v, (dijkstraLoop g k σ).done v = false → graphInf ≤ (dijkstraLoop g k σ).dist v := by
  induction k generalizing σ with
  | zero =>
    refine ⟨h, ?_⟩
    intro v hv
    rw [dijkstraLoop, done_of_count hcount v] at hv
    cases hv
  | succ k ih =>
    rw [dijkstraLoop]
    cases hpick : pick σ.done σ.dist with
    | none => exact ⟨h, pick_none hpick⟩
    | some u =>
      apply ih (h.round hpos hb hpick)
      rw [doneCount_round (pick_some hpick).1]
      omega

theorem dijkstra_shortest (src dst : Fin g.n) : Shortest g.edge graphInf src dst (dijkstra g src dst) := by
  obtain ⟨hsettled, hrest⟩ := dijkstraLoop_settled hpos hb g.n (settled_initial src) (Nat.le_add_left _ _)
  apply shortest_of_bounds hb (noNegativeCycle_of_nonneg hpos) (hsettled.sound dst).2
  intro q c hq
  rcases hsettled.from_src hpos ⟨q, hq.walk⟩ with ⟨-, hle⟩ | ⟨v, hv, hle⟩
  · exact hle
  · exact absurd (hb.path_lt _ _ _ _ hq) (not_lt.2 ((hrest v hv).trans hle))

end

theorem shortest_paths_agree (g : Graph) (src dst : Fin g.n) (hb : Bounded g.edge (-2 ^ 31) graphInf) :
    (NoNegativeCycle g.edge →
      Shortest g.edge graphInf src dst (bellmanFord g src dst) ∧
        floydWarshall g src dst = bellmanFord g src dst) ∧
    ((∀ u v x, g.edge u v = some x → 0 < x) →
      Shortest g.edge graphInf src dst (dijkstra g src dst) ∧
        bellmanFord g src dst = dijkstra g src dst ∧ floydWarshall g src dst = dijkstra g src dst) := by
  constructor
  · intro hc
    have hford := bellmanFord_shortest hb hc src dst
    exact ⟨hford, (floydWarshall_shortest hb hc src dst).unique hford⟩
  · intro hpos
    have hnonneg : ∀ u v x, g.edge u v = some x → 0 ≤ x := fun u v x hx => (hpos u v x hx).le
    have hc := noNegativeCycle_of_nonneg hnonneg
    have hdijkstra := dijkstra_shortest hnonneg hb src dst
    exact ⟨hdijkstra, (bellmanFord_shortest hb hc src dst).unique hdijkstra,
      (floydWarshall_shortest hb hc src dst).unique hdijkstra⟩

theorem triangle_fits : 3 * 3 < 2 ^ 31 := by decide

def triangle : Graph where
  n := 3
  adj := [0, 1, 5, 0, 0, 2, 0, 0, 0]
  size := rfl
  fits := triangle_fits
  words := by decide

theorem triangle_bounded : Bounded triangle.edge (-2 ^ 31) graphInf := by
  have hedge : ∀ u v x, triangle.edge u v = some x → |x| ≤ 5 := by
    have hall : ∀ u v, ∀ x ∈ triangle.edge u v, |x| ≤ 5 := by decide
    exact fun u v x hx => hall u v x hx
  exact bounded_of_edges hedge (by decide) (by decide) (by decide)

def triangle.node (i : Fin 3) : Fin triangle.n := i

theorem shortest_paths_agree_triangle :
    Shortest triangle.edge graphInf (triangle.node 0) (triangle.node 2) 3 ∧
      Shortest triangle.edge graphInf (triangle.node 1) (triangle.node 0) graphInf := by
  have hpos : ∀ u v x, triangle.edge u v = some x → 0 < x := by
    have hall : ∀ u v, ∀ x ∈ triangle.edge u v, 0 < x := by decide
    exact fun u v x hx => hall u v x hx
  have hforth := ((shortest_paths_agree triangle (triangle.node 0) (triangle.node 2) triangle_bounded).2 hpos).1
  have hback := ((shortest_paths_agree triangle (triangle.node 1) (triangle.node 0) triangle_bounded).2 hpos).1
  rw [show dijkstra triangle (triangle.node 0) (triangle.node 2) = 3 by decide] at hforth
  rw [show dijkstra triangle (triangle.node 1) (triangle.node 0) = graphInf by decide] at hback
  exact ⟨hforth, hback⟩

end Vx.Graphs
