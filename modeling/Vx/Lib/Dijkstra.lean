import Mathlib

namespace Vx.Lib.Dijkstra

open List Option AList

/-- A network whose edges carry labels. The key of a walk starts at `start` and is extended by each label; an
extension never lowers a key, and keeps the order below a key that it extends exactly. -/
structure Network (V L K : Type) [LinearOrder K] where
  edges : V → List (V × L)
  start : K
  extend : K → L → K
  exact : K → L → Prop
  le_extend : ∀ k l, k ≤ extend k l
  extend_mono : ∀ k k' l, exact k' l → k ≤ k' → extend k l ≤ extend k' l

structure PopOrder (V K : Type) [LinearOrder K] where
  pop : List (K × V) → Option ((K × V) × List (K × V))
  pop_nil : pop [] = none
  pop_some : ∀ heap, heap ≠ [] → (pop heap).isSome = true
  pop_perm : ∀ heap entry rest, pop heap = some (entry, rest) → heap.Perm (entry :: rest)
  pop_least : ∀ heap entry rest, pop heap = some (entry, rest) → ∀ other ∈ rest, entry.1 ≤ other.1

def PopOrder.first {V K : Type} [DecidableEq V] [LinearOrder K] : PopOrder V K where
  pop heap := (heap.argmin Prod.fst).map fun entry => (entry, heap.erase entry)
  pop_nil := rfl
  pop_some heap hne := by
    cases h : heap.argmin Prod.fst with
    | none => exact absurd (List.argmin_eq_none.mp h) hne
    | some entry => rfl
  pop_perm heap entry rest h := by
    obtain ⟨least, hleast, heq⟩ := Option.map_eq_some_iff.mp h
    cases heq
    exact perm_cons_erase (argmin_mem hleast)
  pop_least heap entry rest h other hother := by
    obtain ⟨least, hleast, heq⟩ := Option.map_eq_some_iff.mp h
    cases heq
    exact le_of_mem_argmin (mem_of_mem_erase hother) hleast

structure State (V K : Type) where
  heap : List (K × V)
  dists : AList fun _ : V => K
  predecessors : AList fun _ : V => V

inductive Outcome (V K : Type)
  | found (key : K) (path : Option (List V))
  | unreachable
  | outOfFuel

variable {V L K : Type} [DecidableEq V] [LinearOrder K]

section
variable (n : Network V L K) (order : PopOrder V K) (source target : V)

def relax (key : K) (mem : V) (σ : State V K) (edge : V × L) : State V K :=
  let nextKey := n.extend key edge.2
  if (σ.dists.lookup edge.1).all fun current => nextKey < current then
    { heap := (nextKey, edge.1) :: σ.heap
      dists := σ.dists.insert edge.1 nextKey
      predecessors := σ.predecessors.insert edge.1 mem }
  else σ

def settle (key : K) (mem : V) (σ : State V K) : State V K :=
  (n.edges mem).foldl (relax n key mem) σ

def trace (predecessors : AList fun _ : V => V) : ℕ → V → List V → Option (List V)
  | 0, _, _ => none
  | fuel + 1, curr, path =>
    if curr = source then some (curr :: path)
    else (predecessors.lookup curr).bind fun next => trace predecessors fuel next (curr :: path)

def loop : ℕ → State V K → Outcome V K
  | 0, _ => .outOfFuel
  | fuel + 1, σ =>
    match order.pop σ.heap with
    | none => .unreachable
    | some ((key, mem), heap) =>
      let σ := { σ with heap }
      if mem = target then .found key (trace source σ.predecessors (σ.predecessors.entries.length + 1) mem [])
      else if (σ.dists.lookup mem).any fun current => current < key then loop fuel σ
      else loop fuel (settle n key mem σ)

def init : State V K := ⟨[(n.start, source)], (∅ : AList _).insert source n.start, ∅⟩

variable (source : V)

inductive Walk : V → K → List V → Prop
  | nil : Walk source n.start [source]
  | snoc {u v : V} {k : K} {p : List V} {l : L} (walk : Walk u k p) (edge : (v, l) ∈ n.edges u) :
      Walk v (n.extend k l) (p ++ [v])

inductive ExactWalk : V → K → List V → Prop
  | nil : ExactWalk source n.start [source]
  | snoc {u v : V} {k : K} {p : List V} {l : L} (walk : ExactWalk u k p) (edge : (v, l) ∈ n.edges u)
      (hexact : n.exact k l) : ExactWalk v (n.extend k l) (p ++ [v])

inductive Traces (predecessors : AList fun _ : V => V) : V → List V → Prop
  | source : Traces predecessors source [source]
  | step {u v : V} {p : List V} (rest : Traces predecessors u p) (hne : v ≠ source)
      (h : predecessors.lookup v = some u) : Traces predecessors v (p ++ [v])

variable {n source} {v : V} {p : List V} {predecessors : AList fun _ : V => V}

theorem Traces.insert {w u : V}
    (h : Traces source predecessors v p) (hw : w ∉ p) : Traces source (predecessors.insert w u) v p := by
  induction h with
  | source => exact .source
  | @step x y p rest hne hlookup ih =>
    simp only [mem_append, List.mem_singleton, not_or] at hw
    exact .step (ih hw.1) hne (by rwa [lookup_insert_ne (Ne.symm hw.2)])

theorem Traces.trace (h : Traces source predecessors v p) {fuel : ℕ} (hfuel : p.length ≤ fuel) (path : List V) :
    trace source predecessors fuel v path = some (p ++ path) := by
  induction h generalizing fuel path with
  | source =>
    cases fuel with
    | zero => simp at hfuel
    | succ fuel => simp [Dijkstra.trace]
  | @step x y p rest hne hlookup ih =>
    cases fuel with
    | zero => simp at hfuel
    | succ fuel =>
      rw [length_append, length_singleton] at hfuel
      simp only [Dijkstra.trace, hne, if_false, hlookup, bind_some]
      rw [ih (by omega)]
      simp

omit [DecidableEq V] in
theorem Walk.start_le {k : K} (h : Walk n source v k p) : n.start ≤ k := by
  induction h with
  | nil => exact le_rfl
  | snoc _ _ ih => exact ih.trans (n.le_extend ..)

end

section
variable (n : Network V L K) (source : V)

structure Inv (σ : State V K) (settled : List V) (floor : K) : Prop where
  nodup : σ.heap.Nodup
  entry : ∀ k v, (k, v) ∈ σ.heap → ∃ d, σ.dists.lookup v = some d ∧ d ≤ k
  queued : ∀ v d, σ.dists.lookup v = some d → v ∈ settled ∨ (d, v) ∈ σ.heap
  below : ∀ u ∈ settled, ∃ d, σ.dists.lookup u = some d ∧ d ≤ floor ∧ (d, u) ∉ σ.heap
  above : ∀ k v, (k, v) ∈ σ.heap → floor ≤ k
  traced : ∀ v d, σ.dists.lookup v = some d → ∃ p, Walk n source v d p ∧ p.Nodup ∧
    Traces source σ.predecessors v p ∧ ∀ x ∈ p, x ≠ v → x ∈ settled
  start : σ.dists.lookup source = some n.start

def Relaxed (σ : State V K) (u : V) (edge : V × L) : Prop :=
  ∀ d, σ.dists.lookup u = some d → ∃ d', σ.dists.lookup edge.1 = some d' ∧ d' ≤ n.extend d edge.2

structure Improves (settled : List V) (σ σ' : State V K) : Prop where
  settled : ∀ u ∈ settled, σ'.dists.lookup u = σ.dists.lookup u
  lower : ∀ v d, σ.dists.lookup v = some d → ∃ d', σ'.dists.lookup v = some d' ∧ d' ≤ d

variable {n source} {settled : List V} {σ : State V K}

theorem Improves.rfl : Improves settled σ σ := ⟨fun _ _ => Eq.refl _, fun _ d h => ⟨d, h, le_rfl⟩⟩

theorem Improves.trans {σ' σ'' : State V K} (h : Improves settled σ σ')
    (h' : Improves settled σ' σ'') : Improves settled σ σ'' where
  settled u hu := (h'.settled u hu).trans (h.settled u hu)
  lower v d hd := by
    obtain ⟨d', hd', hle⟩ := h.lower v d hd
    obtain ⟨d'', hd'', hle'⟩ := h'.lower v d' hd'
    exact ⟨d'', hd'', hle'.trans hle⟩

variable {edge : V × L}

theorem Relaxed.improves {σ' : State V K} {u : V} (h : Relaxed n σ u edge)
    (hi : Improves settled σ σ') (hu : u ∈ settled) : Relaxed n σ' u edge := by
  intro d hd
  rw [hi.settled u hu] at hd
  obtain ⟨d', hd', hle⟩ := h d hd
  obtain ⟨d'', hd'', hle'⟩ := hi.lower _ _ hd'
  exact ⟨d'', hd'', hle'.trans hle⟩

theorem inv_init : Inv n source (init n source) [] n.start where
  nodup := by simp [init]
  entry k v h := by
    simp only [init, List.mem_singleton, Prod.mk.injEq] at h
    obtain ⟨rfl, rfl⟩ := h
    exact ⟨_, lookup_insert _, le_rfl⟩
  queued v d h := by
    have hmem := AList.mem_lookup_iff.mp h
    simp only [init, insert_empty, singleton_entries, List.mem_singleton] at hmem
    cases hmem
    simp [init]
  below u h := by cases h
  above k v h := by
    simp only [init, List.mem_singleton, Prod.mk.injEq] at h
    exact h.1 ▸ le_rfl
  traced v d h := by
    have hmem := AList.mem_lookup_iff.mp h
    simp only [init, insert_empty, singleton_entries, List.mem_singleton] at hmem
    cases hmem
    exact ⟨[source], .nil, by simp, .source, by simp⟩
  start := lookup_insert _

variable {floor k : K} {v : V} (h : Inv n source σ settled floor)
include h

theorem Inv.notMem_of_better (hk : floor ≤ k) (hbetter : (σ.dists.lookup v).all (fun current => k < current) = true) :
    v ∉ settled := by
  intro hv
  obtain ⟨d, hd, hle, -⟩ := h.below v hv
  simp only [hd, all_some, decide_eq_true_eq] at hbetter
  exact absurd (hle.trans hk) (not_le.mpr hbetter)

variable {mem : V}

theorem Inv.relax (hmem : mem ∈ settled) (hdist : σ.dists.lookup mem = some floor) (hedge : edge ∈ n.edges mem) :
    Inv n source (relax n floor mem σ edge) settled floor ∧ Improves settled σ (relax n floor mem σ edge) ∧
      Relaxed n (relax n floor mem σ edge) mem edge := by
  obtain ⟨v, l⟩ := edge
  unfold Dijkstra.relax
  dsimp only
  have hfloor : floor ≤ n.extend floor l := n.le_extend ..
  split
  next hbetter =>
    have hv : v ∉ settled := h.notMem_of_better hfloor hbetter
    have hlt : ∀ d, σ.dists.lookup v = some d → n.extend floor l < d := by
      intro d hd
      simpa [hd] using hbetter
    obtain ⟨p, hwalk, hnodup, htraces, hp⟩ := h.traced mem floor hdist
    have hsource : v ≠ source := by
      rintro rfl
      exact absurd (hwalk.start_le.trans hfloor) (not_le.mpr (hlt _ h.start))
    have hvp : v ∉ p := by
      intro hvp
      by_cases hvm : v = mem
      · exact hv (hvm ▸ hmem)
      · exact hv (hp v hvp hvm)
    refine ⟨?_, ?_, ?_⟩
    · exact {
        nodup := by
          refine List.nodup_cons.mpr ⟨fun hin => ?_, h.nodup⟩
          obtain ⟨d, hd, hle⟩ := h.entry _ _ hin
          exact absurd hle (not_le.mpr (hlt d hd))
        entry := by
          intro k w hin
          rcases List.mem_cons.mp hin with heq | hin
          · cases heq
            exact ⟨_, lookup_insert _, le_rfl⟩
          obtain ⟨d, hd, hle⟩ := h.entry k w hin
          by_cases hw : w = v
          · subst hw
            exact ⟨_, lookup_insert _, (hlt d hd).le.trans hle⟩
          · exact ⟨d, by rwa [lookup_insert_ne hw], hle⟩
        queued := by
          intro w d hd
          by_cases hw : w = v
          · subst hw
            rw [lookup_insert, Option.some.injEq] at hd
            exact .inr (by simp [hd])
          · rw [lookup_insert_ne hw] at hd
            exact (h.queued w d hd).imp_right (mem_cons_of_mem _)
        below := by
          intro u hu
          have huv : u ≠ v := fun heq => hv (heq ▸ hu)
          obtain ⟨d, hd, hle, hstale⟩ := h.below u hu
          refine ⟨d, by rwa [lookup_insert_ne huv], hle, ?_⟩
          simp [huv, hstale]
        above := by
          intro k w hin
          rcases List.mem_cons.mp hin with heq | hin
          · cases heq
            exact hfloor
          · exact h.above k w hin
        traced := by
          intro w d hd
          by_cases hw : w = v
          · subst hw
            rw [lookup_insert, Option.some.injEq] at hd
            subst hd
            refine ⟨p ++ [w], hwalk.snoc hedge, ?_, ?_, ?_⟩
            · exact List.nodup_append.mpr ⟨hnodup, by simp, by rintro x hx y hy rfl; exact hvp (by simp_all)⟩
            · exact .step (htraces.insert hvp) hsource (lookup_insert _)
            · intro x hx hxw
              rcases List.mem_append.mp hx with hx | hx
              · by_cases hxm : x = mem
                · exact hxm ▸ hmem
                · exact hp x hx hxm
              · exact absurd (List.mem_singleton.mp hx) hxw
          · rw [lookup_insert_ne hw] at hd
            obtain ⟨q, hq, hqn, hqt, hqs⟩ := h.traced w d hd
            have hvq : v ∉ q := fun hvq => hv (hqs v hvq (Ne.symm hw))
            exact ⟨q, hq, hqn, hqt.insert hvq, hqs⟩
        start := by rw [lookup_insert_ne (Ne.symm hsource)]; exact h.start }
    · refine ⟨fun u hu => lookup_insert_ne fun heq => hv (heq ▸ hu), fun w d hd => ?_⟩
      by_cases hw : w = v
      · subst hw
        exact ⟨_, lookup_insert _, (hlt d hd).le⟩
      · exact ⟨d, by rwa [lookup_insert_ne hw], le_rfl⟩
    · intro d hd
      have hne : mem ≠ v := fun heq => hv (heq ▸ hmem)
      rw [lookup_insert_ne hne, hdist, Option.some.injEq] at hd
      exact ⟨_, lookup_insert _, hd ▸ le_rfl⟩
  next hworse =>
    refine ⟨h, .rfl, fun d hd => ?_⟩
    rw [hdist, Option.some.injEq] at hd
    subst hd
    cases hv : σ.dists.lookup v with
    | none => simp [hv] at hworse
    | some d' => exact ⟨d', rfl, by simpa [hv] using hworse⟩

omit h in
theorem Inv.foldl_relax (hmem : mem ∈ settled) (edges : List (V × L))
    (hedges : edges ⊆ n.edges mem) (h : Inv n source σ settled floor) (hdist : σ.dists.lookup mem = some floor) :
    Inv n source (edges.foldl (Dijkstra.relax n floor mem) σ) settled floor ∧
      Improves settled σ (edges.foldl (Dijkstra.relax n floor mem) σ) ∧
      ∀ edge ∈ edges, Relaxed n (edges.foldl (Dijkstra.relax n floor mem) σ) mem edge := by
  induction edges generalizing σ with
  | nil => exact ⟨h, .rfl, by simp⟩
  | cons edge edges ih =>
    obtain ⟨hinv, himproves, hrelaxed⟩ := h.relax hmem hdist (hedges mem_cons_self)
    have hdist' : (Dijkstra.relax n floor mem σ edge).dists.lookup mem = some floor :=
      (himproves.settled mem hmem).trans hdist
    obtain ⟨hinv', himproves', hrelaxed'⟩ := ih (subset_of_cons_subset hedges) hinv hdist'
    refine ⟨hinv', himproves.trans himproves', fun e he => ?_⟩
    rcases List.mem_cons.mp he with rfl | he
    · exact hrelaxed.improves himproves' hmem
    · exact hrelaxed' e he

variable {rest : List (K × V)}

theorem Inv.drop {key d : K} (hperm : σ.heap.Perm ((key, mem) :: rest))
    (hdist : σ.dists.lookup mem = some d) (hlt : d < key) : Inv n source { σ with heap := rest } settled floor where
  nodup := (List.nodup_cons.mp (hperm.nodup_iff.mp h.nodup)).2
  entry k v hin := h.entry k v (hperm.mem_iff.mpr (mem_cons_of_mem _ hin))
  queued v d' hd' := by
    rcases h.queued v d' hd' with hv | hin
    · exact .inl hv
    rcases List.mem_cons.mp (hperm.mem_iff.mp hin) with heq | hin
    · cases heq
      rw [hdist, Option.some.injEq] at hd'
      exact absurd hd' hlt.ne
    · exact .inr hin
  below u hu := by
    obtain ⟨d', hd', hle, hstale⟩ := h.below u hu
    exact ⟨d', hd', hle, fun hin => hstale (hperm.mem_iff.mpr (mem_cons_of_mem _ hin))⟩
  above k v hin := h.above k v (hperm.mem_iff.mpr (mem_cons_of_mem _ hin))
  traced := h.traced
  start := h.start

theorem Inv.take {key : K} (hperm : σ.heap.Perm ((key, mem) :: rest))
    (hleast : ∀ other ∈ rest, key ≤ other.1) (hdist : σ.dists.lookup mem = some key) :
    Inv n source { σ with heap := rest } (mem :: settled) key where
  nodup := (List.nodup_cons.mp (hperm.nodup_iff.mp h.nodup)).2
  entry k v hin := h.entry k v (hperm.mem_iff.mpr (mem_cons_of_mem _ hin))
  queued v d hd := by
    rcases h.queued v d hd with hv | hin
    · exact .inl (mem_cons_of_mem _ hv)
    rcases List.mem_cons.mp (hperm.mem_iff.mp hin) with heq | hin
    · cases heq
      exact .inl (by simp)
    · exact .inr hin
  below u hu := by
    rcases List.mem_cons.mp hu with rfl | hu
    · exact ⟨key, hdist, le_rfl, (List.nodup_cons.mp (hperm.nodup_iff.mp h.nodup)).1⟩
    · obtain ⟨d, hd, hle, hstale⟩ := h.below u hu
      refine ⟨d, hd, hle.trans (h.above key mem (hperm.mem_iff.mpr (by simp))), fun hin => ?_⟩
      exact hstale (hperm.mem_iff.mpr (mem_cons_of_mem _ hin))
  above k v hin := hleast (k, v) hin
  traced v d hd := by
    obtain ⟨p, hwalk, hnodup, htraces, hp⟩ := h.traced v d hd
    exact ⟨p, hwalk, hnodup, htraces, fun x hx hne => mem_cons_of_mem _ (hp x hx hne)⟩
  start := h.start

theorem Walk.settled_or_queued (hclosed : ∀ u ∈ settled, ∀ edge ∈ n.edges u, Relaxed n σ u edge) {p : List V}
    (hwalk : Walk n source v k p) : v ∈ settled ∨ σ.heap ≠ [] := by
  induction hwalk with
  | nil => exact (h.queued _ _ h.start).imp_right ne_nil_of_mem
  | @snoc u w k p l _ hedge ih =>
    rcases ih with hu | hheap
    · obtain ⟨d, hd, -⟩ := h.below u hu
      obtain ⟨d', hd', -⟩ := hclosed u hu _ hedge d hd
      exact (h.queued _ _ hd').imp_right ne_nil_of_mem
    · exact .inr hheap

theorem ExactWalk.settled_or_queued
    (hclosed : ∀ u ∈ settled, ∀ edge ∈ n.edges u, Relaxed n σ u edge) {p : List V} (hwalk : ExactWalk n source v k p) :
    (v ∈ settled ∧ ∃ d, σ.dists.lookup v = some d ∧ d ≤ k) ∨ ∃ k' v', (k', v') ∈ σ.heap ∧ k' ≤ k := by
  induction hwalk with
  | nil =>
    rcases h.queued _ _ h.start with hs | hin
    · exact .inl ⟨hs, _, h.start, le_rfl⟩
    · exact .inr ⟨_, _, hin, le_rfl⟩
  | @snoc u w k p l _ hedge hexact ih =>
    rcases ih with ⟨hu, d, hd, hle⟩ | ⟨k', v', hin, hle⟩
    · obtain ⟨d', hd', hle'⟩ := hclosed u hu _ hedge d hd
      have hbound : d' ≤ n.extend k l := hle'.trans (n.extend_mono _ _ _ hexact hle)
      rcases h.queued _ _ hd' with hw | hin
      · exact .inl ⟨hw, d', hd', hbound⟩
      · exact .inr ⟨d', w, hin, hbound⟩
    · exact .inr ⟨k', v', hin, hle.trans (n.le_extend ..)⟩

end

section
variable (n : Network V L K) (source : V)

def work (nodes settled : List V) (σ : State V K) : ℕ :=
  σ.heap.length + ((nodes.filter (· ∉ settled)).map fun u => (n.edges u).length).sum

variable {n source}

theorem length_heap_relax (key : K) (mem : V) (σ : State V K) (edge : V × L) :
    (relax n key mem σ edge).heap.length ≤ σ.heap.length + 1 := by
  unfold relax
  dsimp only
  split <;> simp

theorem length_heap_foldl_relax (key : K) (mem : V) (edges : List (V × L)) (σ : State V K) :
    (edges.foldl (relax n key mem) σ).heap.length ≤ σ.heap.length + edges.length := by
  induction edges generalizing σ with
  | nil => simp
  | cons edge edges ih =>
    have h := ih (relax n key mem σ edge)
    have h' := length_heap_relax (n := n) key mem σ edge
    simp only [foldl_cons, length_cons]
    omega

theorem sum_filter_settle (f : V → ℕ) (nodes settled : List V) {mem : V} (hmem : mem ∈ nodes) (hnew : mem ∉ settled) :
    ((nodes.filter (· ∉ mem :: settled)).map f).sum + f mem ≤ ((nodes.filter (· ∉ settled)).map f).sum := by
  have hle : ∀ nodes : List V,
      ((nodes.filter (· ∉ mem :: settled)).map f).sum ≤ ((nodes.filter (· ∉ settled)).map f).sum := by
    intro nodes
    induction nodes with
    | nil => simp
    | cons x xs ih =>
      by_cases hx : x ∈ settled
      · simpa [hx] using ih
      by_cases hxm : x = mem
      · simp [hxm, hnew] at ih ⊢
        omega
      · simpa [hx, hxm] using ih
  induction nodes with
  | nil => cases hmem
  | cons x xs ih =>
    by_cases hxm : x = mem
    · subst hxm
      have := hle xs
      simp [hnew] at this ⊢
      omega
    · have hxs := ih ((List.mem_cons.mp hmem).resolve_left (Ne.symm hxm))
      by_cases hx : x ∈ settled
      · simpa [hx] using hxs
      · simp [hx, hxm] at hxs ⊢
        omega

end

variable (n : Network V L K) (order : PopOrder V K) (source target : V)

/-- What the search gives: a walk that passes no vertex twice and is no farther than any exact walk, or nothing
when there is no walk. -/
def Correct : Outcome V K → Prop
  | .found key path => ∃ p, path = some p ∧ Walk n source target key p ∧ p.Nodup ∧
      ∀ k p', ExactWalk n source target k p' → key ≤ k
  | .unreachable => ∀ k p, ¬ Walk n source target k p
  | .outOfFuel => False

variable {n order source target}

theorem Traces.length_le {predecessors : AList fun _ : V => V} {v : V} {p : List V}
    (h : Traces source predecessors v p) (hnodup : p.Nodup) : p.length ≤ predecessors.entries.length + 1 := by
  have hmem : ∀ x ∈ p, x = source ∨ x ∈ predecessors := by
    clear hnodup
    induction h with
    | source => simp
    | @step u v p _ _ hlookup ih =>
      intro x hx
      rcases List.mem_append.mp hx with hx | hx
      · exact ih x hx
      · rw [List.mem_singleton.mp hx]
        exact .inr (AList.lookup_isSome.mp (by rw [hlookup]; rfl))
  have hsub : p ⊆ source :: predecessors.keys := by
    intro x hx
    exact List.mem_cons.mpr (hmem x hx)
  have := (subperm_of_subset hnodup hsub).length_le
  simpa [AList.keys, List.keys] using this

variable {nodes : List V}

omit [DecidableEq V] in
theorem Walk.mem_nodes (hsource : source ∈ nodes)
    (hedges : ∀ u ∈ nodes, ∀ edge ∈ n.edges u, edge.1 ∈ nodes) {v : V} {k : K} {p : List V}
    (h : Walk n source v k p) : v ∈ nodes := by
  induction h with
  | nil => exact hsource
  | snoc _ hedge ih => exact hedges _ ih _ hedge

theorem loop_correct (hsource : source ∈ nodes)
    (hedges : ∀ u ∈ nodes, ∀ edge ∈ n.edges u, edge.1 ∈ nodes) (fuel : ℕ) {σ : State V K} {settled : List V}
    {floor : K} (h : Inv n source σ settled floor)
    (hclosed : ∀ u ∈ settled, ∀ edge ∈ n.edges u, Relaxed n σ u edge) (htarget : target ∉ settled)
    (hfuel : work n nodes settled σ < fuel) : Correct n source target (loop n order source target fuel σ) := by
  induction fuel generalizing σ settled floor with
  | zero => omega
  | succ fuel ih =>
    unfold loop
    cases hpop : order.pop σ.heap with
    | none =>
      have hempty : σ.heap = [] := by
        by_contra hne
        simpa [hpop] using order.pop_some σ.heap hne
      intro k p hwalk
      exact (hwalk.settled_or_queued h hclosed).elim htarget fun hne => hne hempty
    | some taken =>
      obtain ⟨⟨key, mem⟩, rest⟩ := taken
      have hperm := order.pop_perm _ _ _ hpop
      have hleast := order.pop_least _ _ _ hpop
      have hmemHeap : (key, mem) ∈ σ.heap := hperm.mem_iff.mpr (by simp)
      obtain ⟨d, hd, hle⟩ := h.entry key mem hmemHeap
      have hlength : σ.heap.length = rest.length + 1 := by simpa using hperm.length_eq
      dsimp only
      split
      next heq =>
        subst heq
        have hkey : d = key := by
          refine le_antisymm hle ?_
          rcases List.mem_cons.mp (hperm.mem_iff.mp ((h.queued mem d hd).resolve_left htarget)) with heq | hin
          · cases heq
            exact le_rfl
          · exact hleast _ hin
        obtain ⟨p, hwalk, hnodup, htraces, -⟩ := h.traced mem d hd
        refine ⟨p, ?_, hkey ▸ hwalk, hnodup, fun k p' hwalk' => ?_⟩
        · have := htraces.trace (htraces.length_le hnodup) []
          simpa using this
        rcases hwalk'.settled_or_queued h hclosed with ⟨ht, -⟩ | ⟨k', v', hin, hk'⟩
        · exact absurd ht htarget
        rcases List.mem_cons.mp (hperm.mem_iff.mp hin) with heq | hin
        · cases heq
          exact hk'
        · exact (hleast _ hin).trans hk'
      next hne =>
        split
        next hstale =>
          have hlt : d < key := by simpa [hd] using hstale
          refine ih (h.drop hperm hd hlt) hclosed htarget ?_
          simp only [work] at hfuel ⊢
          omega
        next hfresh =>
          have hkey : d = key := le_antisymm hle (by simpa [hd] using hfresh)
          subst hkey
          have hnew : mem ∉ settled := by
            intro hin
            obtain ⟨d', hd', -, hnot⟩ := h.below mem hin
            rw [hd, Option.some.injEq] at hd'
            exact hnot (hd' ▸ hmemHeap)
          obtain ⟨p, hwalk, -⟩ := h.traced mem d hd
          have hnodes : mem ∈ nodes := hwalk.mem_nodes hsource hedges
          obtain ⟨hinv, himproves, hrelaxed⟩ :=
            (h.take hperm hleast hd).foldl_relax (by simp) (n.edges mem) (List.Subset.refl _) hd
          refine ih hinv (fun u hu edge hedge => ?_) ?_ ?_
          · rcases List.mem_cons.mp hu with rfl | hu'
            · exact hrelaxed edge hedge
            · exact Relaxed.improves (σ := { σ with heap := rest }) (hclosed u hu' edge hedge) himproves hu
          · simp [htarget, Ne.symm hne]
          · have hheap := length_heap_foldl_relax (n := n) d mem (n.edges mem) { σ with heap := rest }
            have hsum := sum_filter_settle (fun u => (n.edges u).length) nodes settled hnodes hnew
            simp only [work, settle] at hfuel hheap ⊢
            omega

variable (order target) in
theorem loop_init_correct (hsource : source ∈ nodes)
    (hedges : ∀ u ∈ nodes, ∀ edge ∈ n.edges u, edge.1 ∈ nodes) {fuel : ℕ}
    (hfuel : (nodes.map fun u => (n.edges u).length).sum + 1 < fuel) :
    Correct n source target (loop n order source target fuel (init n source)) := by
  refine loop_correct hsource hedges fuel inv_init (by simp) (by simp) ?_
  simpa [work, init, Nat.add_comm] using hfuel

end Vx.Lib.Dijkstra
