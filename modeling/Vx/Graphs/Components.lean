import Vx.Graphs.Traversal

namespace Vx.Graphs

open List Option Finset
open Function (update)
open Relation (ReflTransGen TransGen EqvGen)
open Lib.WorkList

section
variable (g : Graph)

def startFlood (s : (Fin g.n → Bool) × ℤ) (src : Fin g.n) : Option ((Fin g.n → Bool) × ℤ) :=
  if s.1 src = false then (flood g s.1 src).map fun (σ, _) => (σ.value, s.2 + 1) else some s

def connectedComponents : Option ℤ :=
  ((List.finRange g.n).foldlM (startFlood g) (fun _ => false, 0)).map Prod.snd

def countEdge (u : Fin g.n) (indeg : Fin g.n → ℤ) (v : Fin g.n) : Fin g.n → ℤ :=
  if g.hasEdge u v then update indeg v (indeg v + 1) else indeg

def indegrees : Fin g.n → ℤ :=
  (List.finRange g.n).foldl (fun indeg u => (List.finRange g.n).foldl (countEdge g u) indeg) fun _ => 0

def release (u : Fin g.n) (σ : Work (Fin g.n) ℤ) (v : Fin g.n) : Work (Fin g.n) ℤ :=
  if g.hasEdge u v then
    let indeg := update σ.value v (σ.value v - 1)
    ⟨indeg, if indeg v = 0 then σ.queue ++ [v] else σ.queue⟩
  else σ

def isDag : Option ℤ :=
  let queue := (List.finRange g.n).foldl (fun queue v => if indegrees g v = 0 then queue ++ [v] else queue) []
  (drain (fun u σ => (List.finRange g.n).foldl (release g u) σ) (g.n + 1) 0 ⟨indegrees g, queue⟩).map
    fun (_, processed) => if processed = g.n then 1 else 0

variable {g : Graph} {s : (Fin g.n → Bool) × ℤ}

theorem startFlood_spec {seen : List (Fin g.n)} (h : ∀ v, s.1 v = true ↔ ∃ x ∈ seen, g.CanReach x v) (src : Fin g.n) :
    ∃ s', startFlood g s src = some s' ∧ (∀ v, s'.1 v = true ↔ ∃ x ∈ seen ++ [src], g.CanReach x v) ∧
      s'.2 = s.2 + if s.1 src = false then 1 else 0 := by
  have hcons : ∀ v, (∃ x ∈ seen ++ [src], g.CanReach x v) ↔ s.1 v = true ∨ g.CanReach src v := by
    intro v
    rw [h]
    simp only [mem_append, List.mem_singleton, or_and_right, exists_or, exists_eq_left]
  by_cases hsrc : s.1 src = false
  · have hclosed : ∀ u v, s.1 u = true → g.Edge u v → s.1 v = true := by
      intro u v hu hedge
      obtain ⟨x, hx, hxu⟩ := (h u).mp hu
      exact (h v).mpr ⟨x, hx, hxu.tail hedge⟩
    obtain ⟨σ, hflood, -, hvalue, -⟩ := flood_spec s.1 src hclosed hsrc
    refine ⟨(σ.value, s.2 + 1), ?_, ?_, ?_⟩
    · rw [startFlood, if_pos hsrc, hflood]
      rfl
    · intro v
      rw [hcons, hvalue]
    · rw [if_pos hsrc]
  · refine ⟨s, if_neg hsrc, ?_, ?_⟩
    · intro v
      obtain ⟨x, hx, hxs⟩ := (h src).mp (by simpa using hsrc)
      rw [hcons]
      refine ⟨.inl, ?_⟩
      rintro (hv | hv)
      · exact hv
      · exact (h v).mpr ⟨x, hx, hxs.trans hv⟩
    · rw [if_neg hsrc, add_zero]

open Classical in
theorem foldlM_startFlood (seen rest : List (Fin g.n))
    (h : ∀ v, s.1 v = true ↔ ∃ x ∈ seen, g.CanReach x v) (hsorted : (seen ++ rest).Pairwise (· < ·))
    (hall : ∀ v, v ∈ seen ++ rest) : ∃ s', rest.foldlM (startFlood g) s = some s' ∧
      s'.2 = s.2 + rest.countP fun v => ∀ x < v, ¬ g.CanReach x v := by
  induction rest generalizing seen s with
  | nil => exact ⟨s, rfl, by simp⟩
  | cons src rest ih =>
    obtain ⟨s₁, hs₁, h₁, hcount⟩ := startFlood_spec h src
    rw [← singleton_append, ← append_assoc] at hsorted hall
    obtain ⟨s', hs', hcount'⟩ := ih (seen ++ [src]) h₁ hsorted hall
    -- The nodes before `src` are those that the floods have started from.
    have hseen : ∀ x, x ∈ seen ↔ x < src := by
      intro x
      have hlt := List.pairwise_append.mp hsorted
      constructor
      · intro hx
        exact (List.pairwise_append.mp hlt.1).2.2 x hx src (List.mem_singleton_self src)
      intro hx
      rcases List.mem_append.mp (hall x) with hmem | hmem
      · rcases List.mem_append.mp hmem with hmem | hmem
        · exact hmem
        · exact absurd (List.mem_singleton.mp hmem) hx.ne
      · exact absurd (hlt.2.2 src (by simp) x hmem) hx.not_gt
    have hleader : s.1 src = false ↔ ∀ x < src, ¬ g.CanReach x src := by
      rw [← Bool.not_eq_true, h]
      simp only [hseen, not_exists, not_and]
    refine ⟨s', ?_, ?_⟩
    · rw [foldlM_cons, hs₁]
      exact hs'
    · rw [hcount', hcount, countP_cons]
      simp only [hleader, decide_eq_true_eq]
      split_ifs <;> push_cast <;> omega

open Classical in
theorem connectedComponents_eq : connectedComponents g = some (Nat.card {v // ∀ x < v, ¬ g.CanReach x v} : ℤ) := by
  obtain ⟨s, hs, hcount⟩ := foldlM_startFlood (g := g) [] (List.finRange g.n) (s := (fun _ => false, 0)) (by simp)
    (by simpa using pairwise_lt_finRange g.n) (by simp)
  have hcard := card_of_nodup ((nodup_finRange g.n).filter fun v => decide (∀ x < v, ¬ g.CanReach x v))
    (P := fun v => ∀ x < v, ¬ g.CanReach x v) (by simp)
  rw [connectedComponents, hs, hcard, ← countP_eq_length_filter]
  simp only [map_some, hcount, zero_add]

def Graph.Linked (g : Graph) : Fin g.n → Fin g.n → Prop := EqvGen g.Edge

theorem Graph.CanReach.linked {u v : Fin g.n} (h : g.CanReach u v) : g.Linked u v := by
  induction h with
  | refl => exact .refl _
  | tail _ hedge ih => exact ih.trans _ _ _ (.rel _ _ hedge)

def Graph.Rooted (g : Graph) : Prop := ∀ v m, g.Linked m v → (∀ w, g.Linked w v → m ≤ w) → g.CanReach m v

theorem exists_first (v : Fin g.n) : ∃ m, g.Linked m v ∧ ∀ w, g.Linked w v → m ≤ w := by
  obtain ⟨m, hm, hleast⟩ := (Set.toFinite {w | g.Linked w v}).exists_minimal ⟨v, EqvGen.refl v⟩
  refine ⟨m, hm, fun w hw => ?_⟩
  rcases le_total m w with hle | hle
  · exact hle
  · exact hleast hw hle

theorem leader_of_first {v m : Fin g.n} (hm : g.Linked m v) (hleast : ∀ w, g.Linked w v → m ≤ w) :
    ∀ x < m, ¬ g.CanReach x m := fun x hx hreach =>
  absurd (hleast x (hreach.linked.trans _ _ _ hm)) (not_le_of_gt hx)

def classOf (s : {v // ∀ x < v, ¬ g.CanReach x v}) : Quotient (EqvGen.setoid g.Edge) := Quotient.mk _ s.1

theorem classOf_surjective : Function.Surjective (classOf (g := g)) := by
  intro c
  obtain ⟨v, rfl⟩ := Quotient.exists_rep c
  obtain ⟨m, hm, hleast⟩ := exists_first v
  exact ⟨⟨m, leader_of_first hm hleast⟩, Quotient.sound hm⟩

theorem classOf_injective_iff : Function.Injective (classOf (g := g)) ↔ g.Rooted := by
  constructor
  · intro hinj v
    induction v using WellFoundedLT.induction with
    | ind v ih =>
      intro m hm hleast
      by_cases hv : ∀ x < v, ¬ g.CanReach x v
      · have heq : classOf ⟨m, leader_of_first hm hleast⟩ = classOf ⟨v, hv⟩ := Quotient.sound hm
        obtain rfl : m = v := congrArg Subtype.val (hinj heq)
        exact ReflTransGen.refl
      · simp only [not_forall, not_not] at hv
        obtain ⟨x, hlt, hxv⟩ := hv
        have hback := hxv.linked.symm
        have hx := ih x hlt m (hm.trans _ _ _ hback) fun w hw => hleast w (hw.trans _ _ _ hxv.linked)
        exact hx.trans hxv
  · intro hrooted s t hst
    have hlinked : g.Linked s.1 t.1 := Quotient.exact hst
    have hfirst : ∀ (a b : {v // ∀ x < v, ¬ g.CanReach x v}), (∀ w, g.Linked w a.1 → b.1 ≤ w) → g.Linked b.1 a.1 →
        a = b := by
      intro a b hleast hab
      rcases (hleast a.1 (EqvGen.refl _)).lt_or_eq with hlt | heq
      · exact absurd (hrooted a.1 b.1 hab hleast) (a.2 b.1 hlt)
      · exact (Subtype.ext heq).symm
    obtain ⟨m, hm, hleast⟩ := exists_first s.1
    have hs := hfirst s ⟨m, leader_of_first hm hleast⟩ hleast hm
    have ht := hfirst t ⟨m, leader_of_first hm hleast⟩
      (fun w hw => hleast w (hw.trans _ _ _ hlinked.symm)) (hm.trans _ _ _ hlinked)
    rw [hs, ht]

theorem connectedComponents_iff :
    connectedComponents g = some (Nat.card (Quotient (EqvGen.setoid g.Edge)) : ℤ) ↔ g.Rooted := by
  classical
  rw [connectedComponents_eq, ← classOf_injective_iff, some_inj, Nat.cast_inj]
  constructor
  · intro hcard
    exact (classOf_surjective.bijective_of_nat_card_le hcard.le).1
  · intro hinj
    exact Nat.card_eq_of_bijective _ ⟨hinj, classOf_surjective⟩

end

section
variable {g : Graph}

def waiting (taken : List (Fin g.n)) (v : Fin g.n) : ℕ :=
  (Finset.univ.filter fun u => g.hasEdge u v = true ∧ u ∉ taken).card

theorem waiting_eq_zero {taken : List (Fin g.n)} {v : Fin g.n} : waiting taken v = 0 ↔ ∀ u, g.Edge u v → u ∈ taken := by
  simp [waiting, filter_eq_empty_iff, Graph.Edge]

theorem waiting_take {taken : List (Fin g.n)} {u : Fin g.n} (hu : u ∉ taken) (v : Fin g.n) :
    (waiting (taken ++ [u]) v : ℤ) = if g.hasEdge u v then (waiting taken v : ℤ) - 1 else waiting taken v := by
  have hset : (Finset.univ.filter fun x => g.hasEdge x v = true ∧ x ∉ taken ++ [u]) =
      (Finset.univ.filter fun x => g.hasEdge x v = true ∧ x ∉ taken).erase u := by
    ext x
    simp only [Finset.mem_filter, mem_univ, true_and, mem_erase, mem_append, List.mem_singleton]
    tauto
  by_cases hedge : g.hasEdge u v = true
  · have hmem : u ∈ Finset.univ.filter fun x => g.hasEdge x v = true ∧ x ∉ taken := by simp [hedge, hu]
    have hpos := Finset.card_pos.mpr ⟨u, hmem⟩
    rw [if_pos hedge, waiting, hset, card_erase_of_mem hmem, waiting]
    omega
  · rw [if_neg hedge, waiting, hset, erase_eq_of_notMem (by simp [hedge]), waiting]

theorem foldl_countEdge (u : Fin g.n) (indeg : Fin g.n → ℤ) :
    (List.finRange g.n).foldl (countEdge g u) indeg = fun v => indeg v + if g.hasEdge u v then 1 else 0 := by
  have hstep : ∀ (σ : Work (Fin g.n) ℤ) v, countEdge g u σ.value v =
      (Work.touch (fun v d => d + if g.hasEdge u v then 1 else 0) (fun _ _ => false) σ v).value := by
    intro σ v
    unfold countEdge Work.touch
    by_cases hedge : g.hasEdge u v = true <;> simp [hedge]
  have hfold : ∀ σ : Work (Fin g.n) ℤ, (List.finRange g.n).foldl (countEdge g u) σ.value =
      ((List.finRange g.n).foldl (Work.touch (fun v d => d + if g.hasEdge u v then 1 else 0) fun _ _ => false)
        σ).value := fun σ => foldl_hom Work.value hstep
  rw [hfold ⟨indeg, []⟩, Work.foldl_touch _ _ (nodup_finRange g.n)]
  simp

theorem indegrees_eq (v : Fin g.n) : indegrees g v = waiting [] v := by
  have hstep : ∀ (indeg : Fin g.n → ℤ) u, (if g.hasEdge u v then indeg v + 1 else indeg v) =
      (List.finRange g.n).foldl (countEdge g u) indeg v := by
    intro indeg u
    rw [foldl_countEdge]
    by_cases hedge : g.hasEdge u v = true <;> simp [hedge]
  have hfold : ∀ indeg : Fin g.n → ℤ,
      (List.finRange g.n).foldl (fun count u => if g.hasEdge u v then count + 1 else count) (indeg v) =
        (List.finRange g.n).foldl (fun indeg u => (List.finRange g.n).foldl (countEdge g u) indeg) indeg v :=
    fun indeg => foldl_hom (fun indeg : Fin g.n → ℤ => indeg v) hstep
  rw [indegrees, ← hfold, foldl_count, zero_add, waiting, countP_eq_length_filter,
    ← toFinset_card_of_nodup ((nodup_finRange g.n).filter _)]
  congr 2
  ext u
  simp

theorem foldl_release (u : Fin g.n) (σ : Work (Fin g.n) ℤ) : (List.finRange g.n).foldl (release g u) σ =
      ⟨fun v => if g.hasEdge u v then σ.value v - 1 else σ.value v,
        σ.queue ++ (List.finRange g.n).filter fun v => g.hasEdge u v && σ.value v - 1 = 0⟩ := by
  have hrelease : release g u = Work.touch (fun v d => if g.hasEdge u v then d - 1 else d)
      fun v d => g.hasEdge u v && d - 1 = 0 := by
    funext σ v
    unfold release Work.touch
    by_cases hedge : g.hasEdge u v = true <;> simp [hedge]
  rw [hrelease, Work.foldl_touch _ _ (nodup_finRange g.n)]
  simp

structure Sorting (head : ℕ) (σ : Work (Fin g.n) ℤ) : Prop where
  nodup : σ.queue.Nodup
  head_le : head ≤ σ.queue.length
  indeg : ∀ v, σ.value v = waiting (σ.queue.take head) v
  zero : ∀ v, v ∈ σ.queue ↔ σ.value v = 0
  acyclic : ∀ v ∈ σ.queue, ¬ TransGen g.Edge v v

variable {σ : Work (Fin g.n) ℤ} {head : ℕ}

theorem Sorting.taken (h : Sorting head σ) {u v : Fin g.n} (hv : v ∈ σ.queue)
    (hedge : g.Edge u v) : u ∈ σ.queue.take head := by
  have hzero := (h.zero v).mp hv
  rw [h.indeg, Nat.cast_eq_zero] at hzero
  exact waiting_eq_zero.mp hzero u hedge

theorem Sorting.mem_of_canReach (h : Sorting head σ) {u v : Fin g.n}
    (huv : g.CanReach u v) (hv : v ∈ σ.queue) : u ∈ σ.queue := by
  induction huv using ReflTransGen.head_induction_on with
  | refl => exact hv
  | head hedge _ ih => exact mem_of_mem_take (h.taken ih hedge)

theorem not_cycle {P : Fin g.n → Prop} {v : Fin g.n} (hP : ∀ {x y}, g.CanReach x y → P y → P x) (hv : ¬ P v)
    (hpred : ∀ x, g.Edge x v → P x) : ¬ TransGen g.Edge v v := by
  intro hcycle
  obtain ⟨x, hvx, hxv⟩ := TransGen.tail'_iff.mp hcycle
  exact hv (hP hvx (hpred x hxv))

theorem Sorting.step {u : Fin g.n} (h : Sorting head σ)
    (hu : σ.queue[head]? = some u) : Sorting (head + 1) ((List.finRange g.n).foldl (release g u) σ) := by
  have hlt : head < σ.queue.length := (List.getElem?_eq_some_iff.mp hu).1
  have htake : σ.queue.take (head + 1) = σ.queue.take head ++ [u] := by
    rw [take_add_one, hu]
    rfl
  have hnotin : u ∉ σ.queue.take head := by
    have hnodup := h.nodup.sublist (take_sublist (head + 1) _)
    rw [htake] at hnodup
    intro hmem
    exact disjoint_of_nodup_append hnodup hmem (List.mem_singleton_self u)
  have hnew : ∀ v, v ∈ (List.finRange g.n).filter (fun v => g.hasEdge u v && σ.value v - 1 = 0) ↔
      g.Edge u v ∧ σ.value v = 1 := by
    intro v
    simp only [List.mem_filter, mem_finRange, true_and, Bool.and_eq_true, decide_eq_true_eq, Graph.Edge]
    exact and_congr_right fun _ => by omega
  have hedge_pos : ∀ v, g.Edge u v → v ∉ σ.queue := fun v hedge hv => hnotin (h.taken hv hedge)
  have hindeg : ∀ v, (if g.hasEdge u v then σ.value v - 1 else σ.value v) = waiting (σ.queue.take (head + 1)) v := by
    intro v
    rw [htake, waiting_take hnotin, h.indeg]
  rw [foldl_release]
  constructor
  · apply h.nodup.append ((nodup_finRange g.n).filter _)
    intro v hold hv
    exact hedge_pos v ((hnew v).mp hv).1 hold
  · rw [length_append]
    omega
  · intro v
    rw [take_append_of_le_length hlt]
    exact hindeg v
  · intro v
    rw [mem_append, hnew, h.zero]
    by_cases hedge : g.hasEdge u v = true
    · have hne : σ.value v ≠ 0 := fun hzero => hedge_pos v hedge ((h.zero v).mpr hzero)
      simp only [Graph.Edge, hedge, if_true, true_and]
      omega
    · simp [Graph.Edge, hedge]
  · intro v hv
    rcases List.mem_append.mp hv with hold | hv
    · exact h.acyclic v hold
    obtain ⟨hedge, hone⟩ := (hnew v).mp hv
    apply not_cycle h.mem_of_canReach (hedge_pos v hedge)
    have hzero := hindeg v
    rw [if_pos (show g.hasEdge u v = true from hedge), hone, sub_self] at hzero
    intro x hx
    exact mem_of_mem_take (waiting_eq_zero.mp (Nat.cast_eq_zero.mp hzero.symm) x hx)

theorem Sorting.init :
    Sorting 0 ⟨indegrees g, (List.finRange g.n).foldl (fun queue v => if indegrees g v = 0 then queue ++ [v] else queue)
      []⟩ := by
  have hqueue : ∀ (l queue : List (Fin g.n)), l.foldl (fun queue v => if indegrees g v = 0 then queue ++ [v] else queue)
      queue = queue ++ l.filter fun v => indegrees g v = 0 := by
    intro l
    induction l with
    | nil => simp
    | cons v l ih =>
      intro queue
      rw [foldl_cons, ih]
      by_cases hv : indegrees g v = 0 <;> simp [hv]
  rw [hqueue, nil_append]
  refine ⟨(nodup_finRange g.n).filter _, Nat.zero_le _, indegrees_eq, by simp, ?_⟩
  intro v hv
  have hzero : indegrees g v = 0 := by simpa using hv
  rw [indegrees_eq, Nat.cast_eq_zero] at hzero
  apply not_cycle (P := fun _ => False) (fun _ h => h) not_false
  intro x hx
  cases waiting_eq_zero.mp hzero x hx

theorem isDag_spec : ∃ r, isDag g = some r ∧ (r = 1 ↔ ∀ u, ¬ TransGen g.Edge u u) := by
  obtain ⟨σ, hdrain, h⟩ := drain_ends (I := Sorting) (fun _ _ _ h hu => Sorting.step h hu)
    (fun _ _ h => ⟨h.head_le, length_le_of_nodup h.nodup⟩) (Sorting.init (g := g)) (Nat.lt_succ_self g.n)
  refine ⟨if σ.queue.length = g.n then 1 else 0, ?_, ?_⟩
  · rw [isDag, hdrain]
    rfl
  have hall : σ.queue.length = g.n ↔ ∀ v, v ∈ σ.queue := by
    rw [← toFinset_card_of_nodup h.nodup]
    conv_lhs => rhs; rw [← Fintype.card_fin g.n]
    rw [card_eq_iff_eq_univ, eq_univ_iff_forall]
    simp
  simp only [ite_eq_left_iff, zero_ne_one, imp_false, not_not, hall]
  refine ⟨fun hmem u => h.acyclic u (hmem u), ?_⟩
  intro hacyclic v
  have : Std.Irrefl (TransGen g.Edge) := ⟨hacyclic⟩
  induction v using (Finite.wellFounded_of_trans_of_irrefl (TransGen g.Edge)).induction with
  | _ v ih =>
    rw [h.zero, h.indeg, Nat.cast_eq_zero, waiting_eq_zero, take_length]
    intro u hedge
    exact ih u (.single hedge)

end

/-- The floods follow the edges in their own direction only, so the number of components is right exactly when each
component can be reached from its first node; the topological order finds every cycle. -/
theorem components_and_cycles_iff (g : Graph) :
    (connectedComponents g = some (Nat.card (Quotient (EqvGen.setoid g.Edge)) : ℤ) ∧
      ∃ r, isDag g = some r ∧ (r = 1 ↔ ∀ u, ¬ TransGen g.Edge u u)) ↔ g.Rooted := by
  rw [connectedComponents_iff]
  exact ⟨And.left, fun h => ⟨h, isDag_spec⟩⟩

def backEdge : Graph := (Graph.new 2 (by decide)).addEdge (1 : Fin 2) (0 : Fin 2) 1 (by decide)

theorem backEdge_counted_twice :
    connectedComponents backEdge = some 2 ∧ Nat.card (Quotient (EqvGen.setoid backEdge.Edge)) = 1 := by
  refine ⟨by decide, ?_⟩
  rw [Nat.card_eq_one_iff_unique]
  have hedge : backEdge.Linked (1 : Fin 2) (0 : Fin 2) := .rel _ _ rfl
  have hlinked : ∀ u v : Fin 2, backEdge.Linked u v := by
    intro u v
    match u, v with
    | 0, 0 | 1, 1 => exact .refl _
    | 1, 0 => exact hedge
    | 0, 1 => exact hedge.symm
  refine ⟨⟨fun a b => ?_⟩, ⟨Quotient.mk _ (0 : Fin 2)⟩⟩
  obtain ⟨u, rfl⟩ := Quotient.exists_rep a
  obtain ⟨v, rfl⟩ := Quotient.exists_rep b
  exact Quotient.sound (hlinked u v)

end Vx.Graphs
