import Vx.Capacity.Tarjan

namespace Vx.Capacity.Tarjan

open List
open Function (update_of_ne update_self)
open Relation (ReflTransGen)

variable {succ : ℕ → List ℕ} {n : ℕ} {t : Tarjan} {gray rest : List (ℕ × ℕ)} {pending : Option ℕ} {v w : ℕ}

def Reach (succ : ℕ → List ℕ) : ℕ → ℕ → Prop := ReflTransGen fun a b => b ∈ succ a

def Seen (t : Tarjan) (v : ℕ) : Prop := t.ids v ≠ none

def order (t : Tarjan) (v : ℕ) : ℕ := (t.ids v).getD 0

/-- The search has followed the edge from `x` to `w`: all edges of a node that has ended, and those
before the position of a node on the search path. -/
def Explored (succ : ℕ → List ℕ) (gray : List (ℕ × ℕ)) (x w : ℕ) : Prop :=
  w ∈ succ x ∧ ∀ i, (x, i) ∈ gray → w ∈ (succ x).take i

def Topological (succ : ℕ → List ℕ) (sccs : List (List ℕ)) : Prop :=
  ∀ before comp after, sccs = before ++ comp :: after →
    ∀ x ∈ comp, ∀ w ∈ succ x, w ∈ comp ∨ w ∈ before.flatten

structure Core (succ : ℕ → List ℕ) (n : ℕ) (t : Tarjan) (gray : List (ℕ × ℕ)) (pending : Option ℕ) : Prop where
  id_lt : ∀ x i, t.ids x = some i → i < t.nextId ∧ x < n
  id_inj : ∀ x y i, t.ids x = some i → t.ids y = some i → x = y
  onStack_iff : ∀ x, t.onStack x = true ↔ x ∈ t.stack
  seen_iff : ∀ x, t.Seen x ↔ x ∈ t.stack ∨ x ∈ t.sccs.flatten
  apart : ∀ x ∈ t.stack, x ∉ t.sccs.flatten
  stack_sorted : t.stack.Pairwise fun a b => t.order b < t.order a
  gray_stack : ∀ e ∈ gray, e.1 ∈ t.stack
  gray_sorted : gray.Pairwise fun a b => t.order b.1 < t.order a.1
  pending_new : ∀ w, pending = some w → ¬t.Seen w ∧ w < n ∧ ∀ e ∈ gray, Reach succ e.1 w
  explored_seen : ∀ x w, t.Seen x → Explored succ gray x w → t.Seen w ∨ pending = some w
  above_gray : ∀ e ∈ gray, ∀ x ∈ t.stack, t.order e.1 ≤ t.order x → Reach succ e.1 x
  to_gray : ∀ x ∈ t.stack, ∃ e ∈ gray, t.order e.1 ≤ t.order x ∧ Reach succ x e.1
  low_le : ∀ e ∈ gray, t.low e.1 ≤ t.order e.1
  low_reach : ∀ e ∈ gray, ∃ y ∈ t.stack, t.order y = t.low e.1 ∧ Reach succ e.1 y
  low_bound : ∀ e ∈ gray, ∀ x ∈ t.stack, t.order e.1 ≤ t.order x →
    (∀ e' ∈ gray, t.order e.1 < t.order e'.1 → t.order x < t.order e'.1) →
    ∀ w ∈ t.stack, Explored succ gray x w → t.low e.1 ≤ t.order w
  sccs_reach : ∀ comp ∈ t.sccs, ∀ x ∈ comp, ∀ y ∈ comp, Reach succ x y
  sccs_nonempty : ∀ comp ∈ t.sccs, comp ≠ []
  sccs_nodup : t.sccs.flatten.Nodup
  topological : Topological succ t.sccs

theorem Core.withWork (h : Core succ n t gray pending) (work : List (ℕ × ℕ)) :
    Core succ n { t with work := work } gray pending :=
  { h with }

variable {x : ℕ}

theorem Core.stack_seen (h : Core succ n t gray pending) (hx : x ∈ t.stack) : t.Seen x := (h.seen_iff x).mpr (Or.inl hx)

theorem Core.order_lt (h : Core succ n t gray pending) (hx : t.Seen x) : t.order x < t.nextId := by
  obtain ⟨i, hi⟩ := Option.ne_none_iff_exists'.mp hx
  simpa [order, hi] using (h.id_lt x i hi).1

theorem order_enter_self (t : Tarjan) (w : ℕ) : (t.enter w).order w = t.nextId := by
  simp [order, enter]

theorem order_enter_of_ne (h : x ≠ w) : (t.enter w).order x = t.order x := by
  simp [order, enter, h]

theorem low_enter_of_ne (h : x ≠ w) : (t.enter w).low x = t.low x := by
  simp [enter, h]

theorem seen_enter (t : Tarjan) (w x : ℕ) : (t.enter w).Seen x ↔ x = w ∨ t.Seen x := by
  by_cases h : x = w <;> simp [Seen, enter, h]

theorem Explored.tail {e : ℕ × ℕ} (h : Explored succ (e :: gray) x w) : Explored succ gray x w :=
  ⟨h.1, fun i hi => h.2 i (mem_cons_of_mem _ hi)⟩

theorem core_enter (h : Core succ n t gray (some w)) : Core succ n (t.enter w) ((w, 0) :: gray) none := by
  obtain ⟨hnew, hw, hreach⟩ := h.pending_new w rfl
  have hne : ∀ x, t.Seen x → x ≠ w := fun x hx he => hnew (he ▸ hx)
  have hstack : ∀ x ∈ t.stack, x ≠ w := fun x hx => hne x (h.stack_seen hx)
  have hgray : ∀ e ∈ gray, e.1 ≠ w := fun e he => hstack _ (h.gray_stack e he)
  have hself := order_enter_self t w
  have hord : ∀ x ∈ t.stack, (t.enter w).order x = t.order x := fun x hx => order_enter_of_ne (hstack x hx)
  have hgord : ∀ e ∈ gray, (t.enter w).order e.1 = t.order e.1 := fun e he => hord _ (h.gray_stack e he)
  have hlt : ∀ x ∈ t.stack, t.order x < t.nextId := fun x hx => h.order_lt (h.stack_seen hx)
  have hmem : ∀ x, x ∈ (t.enter w).stack ↔ x = w ∨ x ∈ t.stack := fun x => mem_cons
  have hstart : ∀ y, ¬Explored succ ((w, 0) :: gray) w y := fun y hy => by simpa using hy.2 0 (by simp)
  constructor
  case id_lt =>
    intro x i hi
    by_cases hx : x = w
    · obtain rfl : t.nextId = i := by simpa [enter, hx] using hi
      exact ⟨Nat.lt_succ_self _, hx ▸ hw⟩
    · have hi' : t.ids x = some i := by simpa [enter, hx] using hi
      exact ⟨Nat.lt_succ_of_lt (h.id_lt x i hi').1, (h.id_lt x i hi').2⟩
  case id_inj =>
    intro x y i hx hy
    have hold : ∀ z, t.ids z ≠ some t.nextId := fun z hz => lt_irrefl _ (h.id_lt z _ hz).1
    by_cases hxw : x = w <;> by_cases hyw : y = w
    · rw [hxw, hyw]
    · simp only [enter, hxw, update_self, Option.some.injEq, ne_eq, hyw, not_false_eq_true, update_of_ne] at hx hy
      exact absurd (hx ▸ hy) (hold y)
    · simp only [enter, hyw, update_self, Option.some.injEq, ne_eq, hxw, not_false_eq_true, update_of_ne] at hx hy
      exact absurd (hy ▸ hx) (hold x)
    · simp only [enter, ne_eq, hxw, hyw, not_false_eq_true, update_of_ne] at hx hy
      exact h.id_inj x y i hx hy
  case onStack_iff =>
    intro x
    by_cases hx : x = w
    · simp [enter, hx]
    · simp [enter, hx, h.onStack_iff x]
  case seen_iff =>
    intro x
    rw [seen_enter, hmem, h.seen_iff x, or_assoc]
    rfl
  case apart =>
    intro x hx
    rcases (hmem x).mp hx with rfl | hx
    · exact fun hc => hnew ((h.seen_iff x).mpr (Or.inr hc))
    · exact h.apart x hx
  case stack_sorted =>
    refine List.pairwise_cons.mpr ⟨fun x hx => ?_, ?_⟩
    · rw [hself, hord x hx]
      exact hlt x hx
    · apply h.stack_sorted.imp_of_mem
      intro a b ha hb hab
      rwa [hord a ha, hord b hb]
  case gray_stack =>
    intro e he
    rcases List.mem_cons.mp he with rfl | he
    · exact mem_cons_self
    · exact mem_cons_of_mem _ (h.gray_stack e he)
  case gray_sorted =>
    refine List.pairwise_cons.mpr ⟨fun e he => ?_, ?_⟩
    · rw [hself, hgord e he]
      exact hlt _ (h.gray_stack e he)
    · apply h.gray_sorted.imp_of_mem
      intro a b ha hb hab
      rwa [hgord a ha, hgord b hb]
  case pending_new => simp
  case explored_seen =>
    intro x y hx hy
    rw [seen_enter] at hx ⊢
    rcases hx with rfl | hx
    · exact absurd hy (hstart y)
    · rcases h.explored_seen x y hx hy.tail with hs | hp
      · exact Or.inl (Or.inr hs)
      · exact Or.inl (Or.inl (Option.some.inj hp).symm)
  case above_gray =>
    intro e he x hx hle
    rcases List.mem_cons.mp he with rfl | heg <;> rcases (hmem x).mp hx with rfl | hxs
    · exact .refl
    · rw [hself, hord x hxs] at hle
      exact absurd (hlt x hxs) (by omega)
    · exact hreach e heg
    · rw [hgord e heg, hord x hxs] at hle
      exact h.above_gray e heg x hxs hle
  case to_gray =>
    intro x hx
    rcases (hmem x).mp hx with rfl | hx
    · exact ⟨_, mem_cons_self, le_refl _, .refl⟩
    · obtain ⟨e, he, hle, hr⟩ := h.to_gray x hx
      exact ⟨e, mem_cons_of_mem _ he, by rwa [hgord e he, hord x hx], hr⟩
  case low_le =>
    intro e he
    rcases List.mem_cons.mp he with rfl | he
    · rw [hself]
      simp [enter]
    · rw [hgord e he, low_enter_of_ne (hgray e he)]
      exact h.low_le e he
  case low_reach =>
    intro e he
    rcases List.mem_cons.mp he with rfl | he
    · exact ⟨w, mem_cons_self, by rw [hself]; simp [enter], .refl⟩
    · obtain ⟨y, hy, hyl, hr⟩ := h.low_reach e he
      exact ⟨y, mem_cons_of_mem _ hy, by rw [hord y hy, low_enter_of_ne (hgray e he), hyl], hr⟩
  case low_bound =>
    intro e he x hx hle hown y hy hex
    rcases (hmem x).mp hx with rfl | hxs
    · exact absurd hex (hstart y)
    rcases List.mem_cons.mp he with rfl | heg
    · rw [hself, hord x hxs] at hle
      exact absurd (hlt x hxs) (by omega)
    rw [low_enter_of_ne (hgray e heg)]
    rcases (hmem y).mp hy with rfl | hys
    · rw [hself]
      have h₁ := h.low_le e heg
      have h₂ := hlt _ (h.gray_stack e heg)
      omega
    · rw [hord y hys]
      rw [hgord e heg, hord x hxs] at hle
      apply h.low_bound e heg x hxs hle ?_ y hys hex.tail
      intro e' he' hlt'
      have h₁ := hown e' (mem_cons_of_mem _ he')
      rw [hgord e heg, hgord e' he', hord x hxs] at h₁
      exact h₁ hlt'
  case sccs_reach => exact h.sccs_reach
  case sccs_nonempty => exact h.sccs_nonempty
  case sccs_nodup => exact h.sccs_nodup
  case topological => exact h.topological

variable {i : ℕ}

theorem Core.top_notMem {j : ℕ} (h : Core succ n t ((v, i) :: rest) pending) : (v, j) ∉ rest := by
  intro hj
  exact lt_irrefl _ ((List.pairwise_cons.mp h.gray_sorted).1 (v, j) hj)

theorem Core.explored_advance {y : ℕ} (h : Core succ n t ((v, i) :: rest) pending)
    (hw : (succ v)[i]? = some w) (hy : Explored succ ((v, i + 1) :: rest) x y) :
    Explored succ ((v, i) :: rest) x y ∨ x = v ∧ y = w := by
  by_cases hx : x = v
  · subst hx
    have htake := hy.2 (i + 1) mem_cons_self
    rw [take_add_one, hw, mem_append] at htake
    rcases htake with hold | hnew
    · refine Or.inl ⟨hy.1, fun j hj => ?_⟩
      rcases List.mem_cons.mp hj with he | hj
      · rwa [(Prod.mk.inj he).2]
      · exact absurd hj h.top_notMem
    · exact Or.inr ⟨rfl, by simpa using hnew⟩
  · refine Or.inl ⟨hy.1, fun j hj => ?_⟩
    rcases List.mem_cons.mp hj with he | hj
    · exact absurd (Prod.mk.inj he).1 hx
    · exact hy.2 j (mem_cons_of_mem _ hj)

theorem core_advance {low : ℕ → ℕ} (h : Core succ n t ((v, i) :: rest) none)
    (hw : (succ v)[i]? = some w) (hwn : w < n) (hother : ∀ x, x ≠ v → low x = t.low x)
    (hle : low v ≤ t.low v) (hreal : ∃ y ∈ t.stack, t.order y = low v ∧ Reach succ v y)
    (hbound : w ∈ t.stack → low v ≤ t.order w) (hp : t.Seen w ∧ pending = none ∨ ¬t.Seen w ∧ pending = some w) :
    Core succ n { t with low := low } ((v, i + 1) :: rest) pending := by
  have htop : (v, i) ∈ (v, i) :: rest := mem_cons_self
  have hedge : w ∈ succ v := mem_of_getElem? hw
  have hnode : ∀ e ∈ (v, i + 1) :: rest, ∃ e' ∈ (v, i) :: rest, e'.1 = e.1 := by
    intro e he
    rcases List.mem_cons.mp he with rfl | he
    · exact ⟨_, htop, rfl⟩
    · exact ⟨e, mem_cons_of_mem _ he, rfl⟩
  have hnode' : ∀ e ∈ (v, i) :: rest, ∃ e' ∈ (v, i + 1) :: rest, e'.1 = e.1 := by
    intro e he
    rcases List.mem_cons.mp he with rfl | he
    · exact ⟨_, mem_cons_self, rfl⟩
    · exact ⟨e, mem_cons_of_mem _ he, rfl⟩
  have hlow : ∀ x, low x ≤ t.low x := by
    intro x
    by_cases hx : x = v
    · exact hx ▸ hle
    · exact (hother x hx).le
  refine { h with
    gray_stack := ?_
    gray_sorted := ?_
    pending_new := ?_
    explored_seen := ?_
    above_gray := ?_
    to_gray := ?_
    low_le := ?_
    low_reach := ?_
    low_bound := ?_ }
  · intro e he
    obtain ⟨e', he', hn⟩ := hnode e he
    exact hn ▸ h.gray_stack e' he'
  · exact List.pairwise_cons.mpr (List.pairwise_cons.mp h.gray_sorted)
  · rintro y rfl
    rcases hp with ⟨_, hc⟩ | ⟨hns, hc⟩
    · cases hc
    · cases hc
      refine ⟨hns, hwn, fun e he => ?_⟩
      obtain ⟨e', he', hn⟩ := hnode e he
      have hmem : v ∈ t.stack := h.gray_stack _ htop
      have hsort : t.order e'.1 ≤ t.order v := by
        rcases List.mem_cons.mp he' with rfl | her
        · exact le_refl _
        · exact ((List.pairwise_cons.mp h.gray_sorted).1 e' her).le
      rw [← hn]
      exact (h.above_gray e' he' v hmem hsort).tail hedge
  · intro x y hx hy
    rcases h.explored_advance hw hy with hold | ⟨rfl, rfl⟩
    · rcases h.explored_seen x y hx hold with hs | hc
      · exact Or.inl hs
      · cases hc
    · rcases hp with ⟨hs, _⟩ | ⟨_, hc⟩
      · exact Or.inl hs
      · exact Or.inr hc
  · intro e he x hx hge
    obtain ⟨e', he', hn⟩ := hnode e he
    rw [← hn] at hge ⊢
    exact h.above_gray e' he' x hx hge
  · intro x hx
    obtain ⟨e, he, hge, hr⟩ := h.to_gray x hx
    obtain ⟨e', he', hn⟩ := hnode' e he
    exact ⟨e', he', hn ▸ hge, hn ▸ hr⟩
  · intro e he
    obtain ⟨e', he', hn⟩ := hnode e he
    rw [← hn]
    exact (hlow _).trans (h.low_le e' he')
  · intro e he
    by_cases hev : e.1 = v
    · obtain ⟨y, hy, hyl, hr⟩ := hreal
      exact ⟨y, hy, hev ▸ hyl, hev ▸ hr⟩
    obtain ⟨e', he', hn⟩ := hnode e he
    obtain ⟨y, hy, hyl, hr⟩ := h.low_reach e' he'
    rw [hn] at hyl hr
    exact ⟨y, hy, hyl.trans (hother _ hev).symm, hr⟩
  · intro e he x hx hge hown y hy hex
    obtain ⟨e', he', hn⟩ := hnode e he
    rcases h.explored_advance hw hex with hold | ⟨rfl, rfl⟩
    · rw [← hn] at hge hown ⊢
      refine (hlow _).trans (h.low_bound e' he' x hx hge (fun f hf hlt => ?_) y hy hold)
      obtain ⟨f', hf', hfn⟩ := hnode' f hf
      rw [← hfn] at hlt ⊢
      exact hown f' hf' hlt
    · have hev : e.1 = x := by
        by_contra hne
        have hlt : t.order e.1 < t.order x := by
          rcases List.mem_cons.mp he with rfl | her
          · exact absurd rfl hne
          · exact (List.pairwise_cons.mp h.gray_sorted).1 e her
        exact lt_irrefl _ (hown (x, i + 1) mem_cons_self hlt)
      rw [hev]
      exact hbound hy

end Vx.Capacity.Tarjan
