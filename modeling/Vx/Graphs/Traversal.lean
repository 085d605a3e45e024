import Vx.Graphs.Model
import Vx.Lib.WorkList

namespace Vx.Graphs

open List Option Finset
open Function (update update_self update_of_ne)
open Relation (ReflTransGen TransGen)
open Lib.WorkList

section
variable (g : Graph)

def Graph.hasEdge (u v : Fin g.n) : Bool := g.weight u v ≠ 0

def visit (u : Fin g.n) (σ : Work (Fin g.n) Bool) (v : Fin g.n) : Work (Fin g.n) Bool :=
  if g.hasEdge u v then
    if σ.value v = false then ⟨update σ.value v true, σ.queue ++ [v]⟩ else σ
  else σ

def flood (visited : Fin g.n → Bool) (src : Fin g.n) : Option (Work (Fin g.n) Bool × ℕ) :=
  drain (fun u σ => (List.finRange g.n).foldl (visit g u) σ) (g.n + 1) 0 ⟨update visited src true, [src]⟩

-- `count` goes up with `head`.
def bfsReachable (src : Fin g.n) : Option ℤ := (flood g (fun _ => false) src).map fun (_, head) => (head : ℤ)

def dfsStep (below : Fin g.n → (Fin g.n → Bool) → Option (ℤ × (Fin g.n → Bool))) (u : Fin g.n)
    (s : ℤ × (Fin g.n → Bool)) (v : Fin g.n) : Option (ℤ × (Fin g.n → Bool)) :=
  if g.hasEdge u v then
    if s.2 v = false then (below v s.2).map fun (count, visited) => (s.1 + count, visited) else some s
  else some s

def dfsVisit : ℕ → Fin g.n → (Fin g.n → Bool) → Option (ℤ × (Fin g.n → Bool))
  | 0, _, _ => none
  | fuel + 1, u, visited => (List.finRange g.n).foldlM (dfsStep g (dfsVisit fuel) u) (1, update visited u true)

def dfsReachable (src : Fin g.n) : Option ℤ := (dfsVisit g g.n src fun _ => false).map Prod.fst

def join (k i : Fin g.n) (r : Fin g.n × Fin g.n → Bool) (j : Fin g.n) : Fin g.n × Fin g.n → Bool :=
  if r (i, k) then if r (k, j) then update r (i, j) true else r else r

def closureRound (r : Fin g.n × Fin g.n → Bool) (k : Fin g.n) : Fin g.n × Fin g.n → Bool :=
  (List.finRange g.n).foldl (fun r i => (List.finRange g.n).foldl (join g k i) r) r

def closure : Fin g.n × Fin g.n → Bool :=
  (List.finRange g.n).foldl (closureRound g) fun (i, j) => g.hasEdge i j

def reachablePairCount : ℤ :=
  (List.finRange g.n).foldl (fun count i =>
    (List.finRange g.n).foldl (fun count j =>
      if i ≠ j then if closure g (i, j) then count + 1 else count else count) count) 0

variable {g : Graph}

def Graph.Edge (g : Graph) (u v : Fin g.n) : Prop := g.hasEdge u v = true

def Graph.CanReach (g : Graph) : Fin g.n → Fin g.n → Prop := ReflTransGen g.Edge

variable {P : Fin g.n → Prop}

theorem mem_of_canReach {u v : Fin g.n} (hP : ∀ x y, P x → g.Edge x y → P y)
    (huv : g.CanReach u v) (hu : P u) : P v := by
  induction huv with
  | refl => exact hu
  | tail _ hedge ih => exact hP _ _ ih hedge

variable {l : List (Fin g.n)}

theorem card_of_nodup (hl : l.Nodup) (h : ∀ v, v ∈ l ↔ P v) : Nat.card {v // P v} = l.length := by
  rw [Nat.subtype_card l.toFinset (by simpa using h), toFinset_card_of_nodup hl]

theorem length_le_of_nodup (hl : l.Nodup) : l.length ≤ g.n := by
  rw [← toFinset_card_of_nodup hl]
  exact (card_le_univ _).trans_eq (Fintype.card_fin _)

variable {visited : Fin g.n → Bool} {src : Fin g.n}

theorem foldl_visit (u : Fin g.n) (σ : Work (Fin g.n) Bool) : (List.finRange g.n).foldl (visit g u) σ =
      ⟨fun v => σ.value v || g.hasEdge u v,
        σ.queue ++ (List.finRange g.n).filter fun v => g.hasEdge u v && !σ.value v⟩ := by
  have hvisit : visit g u = Work.touch (fun v b => b || g.hasEdge u v) fun v b => g.hasEdge u v && !b := by
    funext σ v
    unfold visit Work.touch
    by_cases hedge : g.hasEdge u v = true
    · cases hv : σ.value v
      · simp [hedge]
      · have hkeep : update σ.value v true = σ.value := by rw [← hv, Function.update_eq_self]
        simp [hedge, hkeep]
    · simp [hedge]
  rw [hvisit, Work.foldl_touch _ _ (nodup_finRange g.n)]
  simp

structure Flooding (visited : Fin g.n → Bool) (src : Fin g.n) (head : ℕ) (σ : Work (Fin g.n) Bool) : Prop where
  nodup : σ.queue.Nodup
  head_le : head ≤ σ.queue.length
  value : ∀ v, σ.value v = true ↔ visited v = true ∨ v ∈ σ.queue
  fresh : ∀ v ∈ σ.queue, visited v = false ∧ g.CanReach src v
  start : src ∈ σ.queue
  done : ∀ u ∈ σ.queue.take head, ∀ v, g.Edge u v → σ.value v = true

theorem Flooding.init (h : visited src = false) : Flooding visited src 0 ⟨update visited src true, [src]⟩ where
  nodup := nodup_singleton src
  head_le := Nat.zero_le _
  value v := by
    by_cases hv : v = src
    · simp [hv]
    · simp [hv]
  fresh v hv := by
    rw [List.mem_singleton.mp hv]
    exact ⟨h, ReflTransGen.refl⟩
  start := List.mem_singleton_self src
  done u hu := by simp at hu

theorem Flooding.step {head : ℕ} {σ : Work (Fin g.n) Bool} {u : Fin g.n} (h : Flooding visited src head σ)
    (hu : σ.queue[head]? = some u) : Flooding visited src (head + 1) ((List.finRange g.n).foldl (visit g u) σ) := by
  have hmem : u ∈ σ.queue := mem_of_getElem? hu
  have hlt : head < σ.queue.length := (List.getElem?_eq_some_iff.mp hu).1
  have hnew : ∀ v, v ∈ (List.finRange g.n).filter (fun v => g.hasEdge u v && !σ.value v) ↔
      g.Edge u v ∧ σ.value v = false := by
    simp [Graph.Edge]
  rw [foldl_visit]
  constructor
  · apply h.nodup.append ((nodup_finRange g.n).filter _)
    intro v hold hv
    have hmarked := (h.value v).mpr (.inr hold)
    rw [((hnew v).mp hv).2] at hmarked
    cases hmarked
  · rw [length_append]
    omega
  · intro v
    rw [mem_append, hnew, Bool.or_eq_true, h.value]
    by_cases hv : σ.value v = true
    · have := (h.value v).mp hv
      tauto
    · simp only [Graph.Edge, Bool.not_eq_true _ ▸ hv]
      tauto
  · intro v hv
    rcases List.mem_append.mp hv with hold | hv
    · exact h.fresh v hold
    obtain ⟨hedge, hfalse⟩ := (hnew v).mp hv
    refine ⟨?_, (h.fresh u hmem).2.tail hedge⟩
    by_contra hvisited
    have := (h.value v).mpr (.inl (by simpa using hvisited))
    rw [hfalse] at this
    cases this
  · exact mem_append_left _ h.start
  · intro x hx v hedge
    rw [take_append_of_le_length hlt, take_add_one, hu] at hx
    rcases List.mem_append.mp hx with hx | hx
    · simp [h.done x hx v hedge]
    · obtain rfl : x = u := by simpa using hx
      simp [show g.hasEdge x v = true from hedge]

/-- A flood marks what can be reached from its source, where the nodes that were marked before lead to no others. -/
theorem flood_spec (visited : Fin g.n → Bool) (src : Fin g.n)
    (hclosed : ∀ u v, visited u = true → g.Edge u v → visited v = true) (hsrc : visited src = false) :
    ∃ σ, flood g visited src = some (σ, σ.queue.length) ∧ σ.queue.Nodup ∧
      (∀ v, σ.value v = true ↔ visited v = true ∨ g.CanReach src v) ∧
      ∀ v, v ∈ σ.queue ↔ visited v = false ∧ g.CanReach src v := by
  have hends : ∃ σ, flood g visited src = some (σ, σ.queue.length) ∧ Flooding visited src σ.queue.length σ := by
    apply drain_ends (I := Flooding visited src) _ _ (Flooding.init hsrc)
    · exact Nat.lt_succ_self g.n
    · intro head σ u h hu
      exact h.step hu
    · intro head σ h
      exact ⟨h.head_le, length_le_of_nodup h.nodup⟩
  obtain ⟨σ, hdrain, h⟩ := hends
  have hreach : ∀ v, g.CanReach src v → σ.value v = true := by
    intro v hv
    apply mem_of_canReach _ hv ((h.value src).mpr (.inr h.start))
    intro x y hx hedge
    rcases (h.value x).mp hx with hx | hx
    · exact (h.value y).mpr (.inl (hclosed x y hx hedge))
    · exact h.done x (by rwa [take_length]) y hedge
  refine ⟨σ, hdrain, h.nodup, ?_, ?_⟩
  · intro v
    constructor
    · intro hv
      exact ((h.value v).mp hv).imp_right fun hq => (h.fresh v hq).2
    · rintro (hv | hv)
      · exact (h.value v).mpr (.inl hv)
      · exact hreach v hv
  · intro v
    constructor
    · exact h.fresh v
    rintro ⟨hfalse, hv⟩
    rcases (h.value v).mp (hreach v hv) with hmarked | hq
    · rw [hfalse] at hmarked
      cases hmarked
    · exact hq

theorem bfsReachable_eq (src : Fin g.n) : bfsReachable g src = some (Nat.card {v // g.CanReach src v} : ℤ) := by
  obtain ⟨σ, hflood, hnodup, -, hqueue⟩ := flood_spec (fun _ => false) src (fun _ _ h => by cases h) rfl
  rw [bfsReachable, hflood, card_of_nodup hnodup (P := g.CanReach src) (by simpa using hqueue)]
  rfl

variable {u : Fin g.n}

def marked (visited : Fin g.n → Bool) : ℕ := (Finset.univ.filter fun v => visited v = true).card

theorem marked_le (visited : Fin g.n → Bool) : marked visited ≤ g.n := (card_le_univ _).trans_eq (Fintype.card_fin _)

theorem marked_update (hu : visited u = false) : marked (update visited u true) = marked visited + 1 := by
  have hset : (Finset.univ.filter fun v => update visited u true v = true) =
      insert u (Finset.univ.filter fun v => visited v = true) := by
    ext v
    by_cases hv : v = u
    · simp [hv]
    · simp [hv]
  rw [marked, hset, card_insert_of_notMem (by simp [hu])]
  rfl

structure Explored (u : Fin g.n) (before : Fin g.n → Bool) (seen : List (Fin g.n)) (s : ℤ × (Fin g.n → Bool)) :
    Prop where
  keeps : ∀ v, before v = true → s.2 v = true
  self : s.2 u = true
  reached : ∀ v, s.2 v = true → before v = true ∨ g.CanReach u v
  closed : ∀ v, s.2 v = true → before v = true ∨ v = u ∨ ∀ w, g.Edge v w → s.2 w = true
  here : ∀ w ∈ seen, g.Edge u w → s.2 w = true
  count : (marked s.2 : ℤ) = marked before + s.1

theorem Explored.init (hu : visited u = false) : Explored u visited [] (1, update visited u true) where
  keeps v hv := by
    by_cases hvu : v = u
    · simp [hvu]
    · simpa [hvu] using hv
  self := update_self u true visited
  reached v hv := by
    by_cases hvu : v = u
    · exact .inr (hvu ▸ ReflTransGen.refl)
    · exact .inl (by simpa [hvu] using hv)
  closed v hv := by
    by_cases hvu : v = u
    · exact .inr (.inl hvu)
    · exact .inl (by simpa [hvu] using hv)
  here w hw := by cases hw
  count := by
    rw [marked_update hu]
    rfl

variable {seen : List (Fin g.n)} {s : ℤ × (Fin g.n → Bool)}

theorem Explored.skip {v : Fin g.n}
    (h : Explored u visited seen s) (hv : g.Edge u v → s.2 v = true) : Explored u visited (seen ++ [v]) s := by
  refine ⟨h.keeps, h.self, h.reached, h.closed, ?_, h.count⟩
  intro w hw hedge
  rcases List.mem_append.mp hw with hw | hw
  · exact h.here w hw hedge
  · rw [List.mem_singleton.mp hw] at hedge ⊢
    exact hv hedge

theorem Explored.below {s s' : ℤ × (Fin g.n → Bool)} {v : Fin g.n}
    (h : Explored u visited seen s) (hedge : g.Edge u v) (h' : Explored v s.2 (List.finRange g.n) s') :
    Explored u visited (seen ++ [v]) (s.1 + s'.1, s'.2) where
  keeps w hw := h'.keeps w (h.keeps w hw)
  self := h'.keeps u h.self
  reached w hw := by
    rcases h'.reached w hw with hold | hnew
    · exact h.reached w hold
    · exact .inr (hnew.head hedge)
  closed w hw := by
    rcases h'.closed w hw with hold | rfl | hnew
    · refine (h.closed w hold).imp_right fun hw => hw.imp_right fun hw x hx => ?_
      exact h'.keeps x (hw x hx)
    · exact .inr (.inr fun x => h'.here x (mem_finRange x))
    · exact .inr (.inr hnew)
  here w hw hw' := by
    rcases List.mem_append.mp hw with hw | hw
    · exact h'.keeps w (h.here w hw hw')
    · rw [List.mem_singleton.mp hw]
      exact h'.self
  count := by
    rw [h'.count, h.count]
    exact add_assoc _ _ _

theorem Explored.pos (h : Explored u visited seen s) (hu : visited u = false) : marked visited + 1 ≤ marked s.2 := by
  rw [← marked_update hu]
  apply card_le_card
  intro v hv
  simp only [Finset.mem_filter, mem_univ, true_and] at hv ⊢
  by_cases hvu : v = u
  · exact hvu ▸ h.self
  · exact h.keeps v (by simpa [hvu] using hv)

theorem foldlM_explored {below : Fin g.n → (Fin g.n → Bool) → Option (ℤ × (Fin g.n → Bool))}
    (hbelow : ∀ v marks, marks v = false → marked visited < marked marks →
      ∃ s, below v marks = some s ∧ Explored v marks (List.finRange g.n) s) (hu : visited u = false)
    (h : Explored u visited seen s) (rest : List (Fin g.n)) :
    ∃ s', rest.foldlM (dfsStep g below u) s = some s' ∧ Explored u visited (seen ++ rest) s' := by
  induction rest generalizing seen s with
  | nil => exact ⟨s, rfl, by rwa [append_nil]⟩
  | cons v rest ih =>
    have hstep : ∃ s₁, dfsStep g below u s v = some s₁ ∧ Explored u visited (seen ++ [v]) s₁ := by
      by_cases hedge : g.hasEdge u v = true
      · by_cases hv : s.2 v = false
        · obtain ⟨s₁, hs₁, h₁⟩ := hbelow v s.2 hv (h.pos hu)
          exact ⟨_, by simp [dfsStep, hedge, hv, hs₁], h.below hedge h₁⟩
        · exact ⟨s, by simp [dfsStep, hedge, hv], h.skip fun _ => by simpa using hv⟩
      · exact ⟨s, by simp [dfsStep, hedge], h.skip fun hv => absurd hv hedge⟩
    obtain ⟨s₁, hs₁, h₁⟩ := hstep
    obtain ⟨s', hs', h'⟩ := ih h₁
    refine ⟨s', ?_, by rwa [append_assoc] at h'⟩
    rw [foldlM_cons, hs₁]
    exact hs'

theorem dfsVisit_explored {fuel : ℕ} (hu : visited u = false) (hfuel : g.n ≤ fuel + marked visited) :
    ∃ s, dfsVisit g fuel u visited = some s ∧ Explored u visited (List.finRange g.n) s := by
  induction fuel generalizing u visited with
  | zero =>
    have hroom := marked_le (update visited u true)
    rw [marked_update hu] at hroom
    omega
  | succ fuel ih =>
    apply foldlM_explored _ hu (Explored.init hu)
    intro v marks hv hlt
    exact ih hv (by omega)

theorem dfsReachable_eq (src : Fin g.n) : dfsReachable g src = some (Nat.card {v // g.CanReach src v} : ℤ) := by
  obtain ⟨s, hs, h⟩ : ∃ s, dfsVisit g g.n src (fun _ => false) = some s ∧
      Explored src (fun _ => false) (List.finRange g.n) s := dfsVisit_explored rfl (Nat.le_add_right _ _)
  have hreach : ∀ v, s.2 v = true ↔ g.CanReach src v := by
    intro v
    constructor
    · intro hv
      exact (h.reached v hv).resolve_left (by simp)
    intro hv
    apply mem_of_canReach _ hv h.self
    intro x y hx hedge
    rcases h.closed x hx with hbefore | rfl | hclosed
    · cases hbefore
    · exact h.here y (mem_finRange y) hedge
    · exact hclosed y hedge
  have hcount := h.count
  rw [dfsReachable, hs, Nat.subtype_card (Finset.univ.filter fun v => s.2 v = true) (by simpa using hreach)]
  simp only [marked, Bool.false_eq_true, Finset.filter_false, card_empty] at hcount
  simp only [map_some, Option.some.injEq]
  omega

variable {k : Fin g.n} {r r' r'' : Fin g.n × Fin g.n → Bool}

structure Joined (k : Fin g.n) (pairs : Set (Fin g.n × Fin g.n)) (r r' : Fin g.n × Fin g.n → Bool) : Prop where
  grows : ∀ p, r p = true → r' p = true
  sound : (∀ i j, r (i, j) = true → TransGen g.Edge i j) → ∀ i j, r' (i, j) = true → TransGen g.Edge i j
  joined : ∀ i j, (i, j) ∈ pairs → r (i, k) = true → r (k, j) = true → r' (i, j) = true

theorem joined_join (i j : Fin g.n) : Joined k {(i, j)} r (join g k i r j) := by
  unfold join
  by_cases hboth : r (i, k) = true ∧ r (k, j) = true
  · rw [if_pos hboth.1, if_pos hboth.2]
    refine ⟨?_, ?_, ?_⟩
    · intro p hp
      by_cases hij : p = (i, j)
      · rw [hij, update_self]
      · rwa [update_of_ne hij]
    · intro hsound x y hxy
      by_cases hij : (x, y) = (i, j)
      · obtain ⟨rfl, rfl⟩ := Prod.mk.inj hij
        exact (hsound _ _ hboth.1).trans (hsound _ _ hboth.2)
      · rw [update_of_ne hij] at hxy
        exact hsound x y hxy
    · intro x y hxy _ _
      rw [Set.mem_singleton_iff.mp hxy, update_self]
  · have hsame : (if r (i, k) = true then if r (k, j) = true then update r (i, j) true else r else r) = r := by
      by_cases hik : r (i, k) = true
      · rw [if_pos hik, if_neg fun hkj => hboth ⟨hik, hkj⟩]
      · rw [if_neg hik]
    rw [hsame]
    refine ⟨fun _ hp => hp, fun hsound => hsound, ?_⟩
    intro x y hxy hxk hky
    obtain ⟨rfl, rfl⟩ := Prod.mk.inj hxy
    exact absurd ⟨hxk, hky⟩ hboth

theorem Joined.trans {pairs pairs' : Set (Fin g.n × Fin g.n)} (h : Joined k pairs r r') (h' : Joined k pairs' r' r'') :
    Joined k (pairs ∪ pairs') r r'' where
  grows p hp := h'.grows p (h.grows p hp)
  sound hsound := h'.sound (h.sound hsound)
  joined i j hij hik hkj := by
    rcases hij with hij | hij
    · exact h'.grows _ (h.joined i j hij hik hkj)
    · exact h'.joined i j hij (h.grows _ hik) (h.grows _ hkj)

variable {A : Type}

theorem Joined.foldl {step : (Fin g.n × Fin g.n → Bool) → A → Fin g.n × Fin g.n → Bool}
    {pairs : A → Set (Fin g.n × Fin g.n)} (hstep : ∀ a r, Joined k (pairs a) r (step r a)) (l : List A) :
    Joined k {p | ∃ a ∈ l, p ∈ pairs a} r (l.foldl step r) := by
  induction l generalizing r with
  | nil => exact ⟨fun _ hp => hp, fun hsound => hsound, fun _ _ ⟨_, ha, _⟩ => by cases ha⟩
  | cons a l ih =>
    have h := (hstep a r).trans (ih (r := step r a))
    refine ⟨h.grows, h.sound, ?_⟩
    rintro i j ⟨b, hb, hij⟩
    apply h.joined
    rcases List.mem_cons.mp hb with rfl | hb
    · exact .inl hij
    · exact .inr ⟨b, hb, hij⟩

theorem joined_closureRound (k : Fin g.n) (r : Fin g.n × Fin g.n → Bool) :
    Joined k Set.univ r (closureRound g r k) := by
  have h := Joined.foldl (r := r) (fun i r => Joined.foldl (r := r) (fun j r => joined_join (k := k) (r := r) i j)
    (List.finRange g.n)) (List.finRange g.n)
  refine ⟨h.grows, h.sound, ?_⟩
  intro i j _
  apply h.joined
  exact ⟨i, mem_finRange i, j, mem_finRange j, rfl⟩

inductive Through (g : Graph) (ks : List (Fin g.n)) : Fin g.n → Fin g.n → Prop
  | edge {i j : Fin g.n} (h : g.Edge i j) : Through g ks i j
  | step {i m j : Fin g.n} (him : Through g ks i m) (hm : m ∈ ks) (hmj : g.Edge m j) : Through g ks i j

theorem Through.split {ks : List (Fin g.n)} {i j : Fin g.n} (h : Through g (ks ++ [k]) i j) :
    Through g ks i j ∨ Through g ks i k ∧ Through g ks k j := by
  induction h with
  | edge h => exact .inl (.edge h)
  | step him hm hmj ih =>
    rcases List.mem_append.mp hm with hm | hm
    · rcases ih with him | ⟨hik, hkm⟩
      · exact .inl (him.step hm hmj)
      · exact .inr ⟨hik, hkm.step hm hmj⟩
    · rw [List.mem_singleton.mp hm] at ih hmj
      rcases ih with hik | ⟨hik, -⟩
      · exact .inr ⟨hik, .edge hmj⟩
      · exact .inr ⟨hik, .edge hmj⟩

theorem foldl_closureRound (seen ks : List (Fin g.n)) (hsound : ∀ i j, r (i, j) = true → TransGen g.Edge i j)
    (hfull : ∀ i j, Through g seen i j → r (i, j) = true) :
    (∀ i j, ks.foldl (closureRound g) r (i, j) = true → TransGen g.Edge i j) ∧
      ∀ i j, Through g (seen ++ ks) i j → ks.foldl (closureRound g) r (i, j) = true := by
  induction ks generalizing seen r with
  | nil => exact ⟨hsound, by rwa [append_nil]⟩
  | cons k ks ih =>
    have h := joined_closureRound k r
    have hrest := ih (seen ++ [k]) (h.sound hsound) ?_
    · rwa [append_assoc] at hrest
    intro i j hij
    rcases hij.split with hij | ⟨hik, hkj⟩
    · exact h.grows _ (hfull i j hij)
    · exact h.joined i j trivial (hfull i k hik) (hfull k j hkj)

theorem closure_iff (i j : Fin g.n) : closure g (i, j) = true ↔ TransGen g.Edge i j := by
  have hstart : ∀ i j, Through g [] i j → g.hasEdge i j = true := by
    intro i j hij
    cases hij with
    | edge h => exact h
    | step _ hm => cases hm
  obtain ⟨hsound, hfull⟩ := foldl_closureRound (r := fun (i, j) => g.hasEdge i j) [] (List.finRange g.n)
    (fun _ _ h => TransGen.single h) hstart
  constructor
  · exact hsound i j
  intro hij
  apply hfull
  induction hij with
  | single h => exact .edge h
  | tail _ hedge ih => exact ih.step (by simp) hedge

theorem foldl_count (p : A → Bool) (l : List A) (count : ℤ) :
    l.foldl (fun count a => if p a then count + 1 else count) count = count + l.countP p := by
  induction l generalizing count with
  | nil => simp
  | cons a l ih =>
    rw [foldl_cons, ih]
    by_cases ha : p a = true
    · rw [countP_cons_of_pos ha, if_pos ha]
      omega
    · rw [countP_cons_of_neg ha, if_neg ha]

theorem foldl_add (f : A → ℤ) (l : List A) (count : ℤ) :
    l.foldl (fun count a => count + f a) count = count + (l.map f).sum := by
  induction l generalizing count with
  | nil => simp
  | cons a l ih => rw [foldl_cons, ih, List.map_cons, List.sum_cons, add_assoc]

theorem reachablePairCount_eq :
    reachablePairCount g = ∑ i, (((List.finRange g.n).countP fun j => i ≠ j && closure g (i, j)) : ℤ) := by
  have hrow : ∀ (i : Fin g.n) (count : ℤ), (List.finRange g.n).foldl (fun count j =>
      if i ≠ j then if closure g (i, j) then count + 1 else count else count) count =
        count + (List.finRange g.n).countP fun j => i ≠ j && closure g (i, j) := by
    intro i count
    rw [← foldl_count]
    congr 1
    funext count j
    by_cases hij : i = j <;> simp [hij]
  rw [Fin.sum_univ_def, ← zero_add (List.sum _), ← foldl_add]
  unfold reachablePairCount
  congr 1
  funext count i
  exact hrow i count

theorem countP_closure (i : Fin g.n) :
    (Nat.card {v // g.CanReach i v} : ℤ) - 1 = (List.finRange g.n).countP fun j => i ≠ j && closure g (i, j) := by
  have hlist : ∀ v, v ∈ i :: (List.finRange g.n).filter (fun j => i ≠ j && closure g (i, j)) ↔ g.CanReach i v := by
    intro v
    simp only [List.mem_cons, List.mem_filter, mem_finRange, true_and, Bool.and_eq_true, decide_eq_true_eq, closure_iff]
    constructor
    · rintro (rfl | ⟨-, h⟩)
      · exact ReflTransGen.refl
      · exact h.to_reflTransGen
    · intro h
      rcases Relation.reflTransGen_iff_eq_or_transGen.mp h with h | h
      · exact .inl h
      · by_cases hiv : i = v
        · exact .inl hiv.symm
        · exact .inr ⟨hiv, h⟩
  have hnodup : (i :: (List.finRange g.n).filter fun j => i ≠ j && closure g (i, j)).Nodup :=
    List.nodup_cons.mpr ⟨by simp, (nodup_finRange g.n).filter _⟩
  rw [card_of_nodup hnodup hlist, length_cons, ← countP_eq_length_filter]
  omega

end

/-- The two searches count the nodes that can be reached from a node with the node itself, and the closure counts the
pairs that the searches find. -/
theorem reachability_counts_agree (g : Graph) :
    (∀ src, bfsReachable g src = some (Nat.card {v // g.CanReach src v} : ℤ) ∧
        dfsReachable g src = some (Nat.card {v // g.CanReach src v} : ℤ)) ∧
      ∀ counts : Fin g.n → ℤ, (∀ u, bfsReachable g u = some (counts u)) →
        reachablePairCount g = ∑ u, (counts u - 1) := by
  refine ⟨fun src => ⟨bfsReachable_eq src, dfsReachable_eq src⟩, ?_⟩
  intro counts hcounts
  rw [reachablePairCount_eq]
  apply sum_congr rfl
  intro u _
  have hu : counts u = (Nat.card {v // g.CanReach u v} : ℤ) :=
    some_injective _ ((hcounts u).symm.trans (bfsReachable_eq u))
  rw [hu, countP_closure]

end Vx.Graphs
