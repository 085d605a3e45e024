import Mathlib

/-!
A ring of slots with turn numbers, shared by many senders and one taker. The slot of `k` shows `2 * k` while it
waits for the value of `k`, and `2 * k + 1` once it holds it. A sender may give up a number that it took; the
taker then passes it.
-/

namespace Vx.Lib.SlotRing

open List
open Function (update update_of_ne update_self)

inductive Outcome (α : Type)
  | pending
  | published (value : α)
  | skipped
  | abandoned

inductive Holder (α : Type)
  | out
  | waiting (k : ℕ) (value : α)
  | clear (k : ℕ) (value : α)
  | filled (k : ℕ) (value : α)

inductive Taker (α : Type)
  | ready
  | full (k : ℕ)
  | taking (k : ℕ)
  | freeing (k : ℕ) (value : α)
  | holding (k : ℕ) (value : α)
  | passing (k : ℕ)
  | passed (k : ℕ)

structure State (α : Type) where
  sends : ℕ
  recvs : ℕ
  slots : ℕ → ℕ
  data : ℕ → α
  skips : Finset ℕ
  holders : ℕ → Holder α
  taker : Taker α
  outcome : ℕ → Outcome α
  delivered : List (ℕ × α)

variable {α : Type}

def Holder.number : Holder α → Option ℕ
  | .out => none
  | .waiting k _ | .clear k _ | .filled k _ => some k

@[simp]
def Outcome.entry (k : ℕ) : Outcome α → List (ℕ × α)
  | .published value => [(k, value)]
  | _ => []

def Outcome.turn (k : ℕ) : Outcome α → ℕ
  | .published _ => 2 * k + 1
  | _ => 2 * k

def State.position (s : State α) : ℕ :=
  match s.taker with
  | .taking k | .freeing k _ | .passed k => k
  | _ => s.recvs

@[simp]
def State.inHand (s : State α) : List (ℕ × α) :=
  match s.taker with
  | .taking k => (s.outcome k).entry k
  | .freeing k value | .holding k value => [(k, value)]
  | _ => []

inductive Step (cap : ℕ) (s : State α) : State α → Prop
  | take (i : ℕ) (v : α) (h : s.holders i = .out) :
      Step cap s { s with sends := s.sends + 1, holders := update s.holders i (.waiting s.sends v) }
  | enter (i k : ℕ) (v : α) (h : s.holders i = .waiting k v) (hs : s.slots (k % cap) = 2 * k) :
      Step cap s { s with holders := update s.holders i (.clear k v) }
  | fill (i k : ℕ) (v : α) (h : s.holders i = .clear k v) :
      Step cap s { s with data := update s.data (k % cap) v, holders := update s.holders i (.filled k v) }
  | publish (i k : ℕ) (v : α) (h : s.holders i = .filled k v) :
      Step cap s { s with
        slots := update s.slots (k % cap) (2 * k + 1)
        outcome := update s.outcome k (.published v)
        holders := update s.holders i .out }
  | skip (i k : ℕ) (v : α) (h : s.holders i = .waiting k v) :
      Step cap s { s with
        skips := insert k s.skips
        outcome := update s.outcome k .skipped
        holders := update s.holders i .out }
  | abandon (i k : ℕ) (v : α) (h : s.holders i = .waiting k v) :
      Step cap s { s with outcome := update s.outcome k .abandoned, holders := update s.holders i .out }
  | find (h : s.taker = .ready) (hs : s.slots (s.recvs % cap) = 2 * s.recvs + 1) :
      Step cap s { s with taker := .full s.recvs }
  | advance (k : ℕ) (h : s.taker = .full k) : Step cap s { s with recvs := k + 1, taker := .taking k }
  | read (k : ℕ) (h : s.taker = .taking k) : Step cap s { s with taker := .freeing k (s.data (k % cap)) }
  | free (k : ℕ) (v : α) (h : s.taker = .freeing k v) :
      Step cap s { s with slots := update s.slots (k % cap) (2 * (k + cap)), taker := .holding k v }
  | deliver (k : ℕ) (v : α) (h : s.taker = .holding k v) :
      Step cap s { s with delivered := s.delivered ++ [(k, v)], taker := .ready }
  | findSkip (h : s.taker = .ready) (hk : s.recvs ∈ s.skips) :
      Step cap s { s with skips := s.skips.erase s.recvs, taker := .passing s.recvs }
  | advanceSkip (k : ℕ) (h : s.taker = .passing k) : Step cap s { s with recvs := k + 1, taker := .passed k }
  | freeSkip (k : ℕ) (h : s.taker = .passed k) :
      Step cap s { s with slots := update s.slots (k % cap) (2 * (k + cap)), taker := .ready }

def HolderOk (cap : ℕ) (s : State α) : Holder α → Prop
  | .out => True
  | .waiting k _ => k < s.sends ∧ s.outcome k = .pending
  | .clear k _ => k < s.sends ∧ s.outcome k = .pending ∧ s.slots (k % cap) = 2 * k
  | .filled k v => k < s.sends ∧ s.outcome k = .pending ∧ s.slots (k % cap) = 2 * k ∧ s.data (k % cap) = v

def TakerOk (cap : ℕ) (s : State α) : Taker α → Prop
  | .ready => True
  | .full k => s.recvs = k ∧ s.slots (k % cap) = 2 * k + 1
  | .taking k => s.recvs = k + 1 ∧ ∃ v, s.outcome k = .published v
  | .freeing k v => s.recvs = k + 1 ∧ s.outcome k = .published v
  | .holding k v => s.recvs = k + 1 ∧ s.outcome k = .published v
  | .passing k => s.recvs = k ∧ s.outcome k = .skipped ∧ k ∉ s.skips
  | .passed k => s.recvs = k + 1 ∧ s.outcome k = .skipped

structure Inv (cap : ℕ) (s : State α) : Prop where
  pos : 0 < cap
  taker : TakerOk cap s s.taker
  holders : ∀ i, HolderOk cap s (s.holders i)
  distinct : ∀ i j k, (s.holders i).number = some k → (s.holders j).number = some k → i = j
  window : ∀ k, s.position ≤ k → k < s.position + cap → s.slots (k % cap) = (s.outcome k).turn k
  stored : ∀ k v, s.position ≤ k → s.outcome k = .published v → k < s.position + cap ∧ s.data (k % cap) = v
  fresh : ∀ k, s.sends ≤ k → s.outcome k = .pending
  passed : ∀ k < s.recvs, (∃ v, s.outcome k = .published v) ∨ s.outcome k = .skipped
  skips : ∀ k ∈ s.skips, s.recvs ≤ k ∧ s.outcome k = .skipped
  delivered : s.delivered ++ s.inHand = (List.range s.recvs).flatMap fun k => (s.outcome k).entry k

variable {cap : ℕ} {s s' : State α} {k : ℕ}

theorem eq_of_mod_eq {n k' : ℕ} (hk : n ≤ k ∧ k < n + cap) (hk' : n ≤ k' ∧ k' < n + cap)
    (h : k % cap = k' % cap) : k = k' := by
  have hmod : (k - n) % cap = (k' - n) % cap := by
    have hcong : n + (k - n) ≡ n + (k' - n) [MOD cap] := by
      rw [Nat.add_sub_cancel' hk.1, Nat.add_sub_cancel' hk'.1]
      exact h
    exact Nat.ModEq.add_left_cancel' n hcong
  rw [Nat.mod_eq_of_lt (by omega), Nat.mod_eq_of_lt (by omega)] at hmod
  omega

theorem exists_window (hcap : 0 < cap) (n k : ℕ) (hk : n ≤ k) : ∃ k', n ≤ k' ∧ k' < n + cap ∧ k' % cap = k % cap := by
  refine ⟨n + (k - n) % cap, by omega, by have := Nat.mod_lt (k - n) hcap; omega, ?_⟩
  rw [Nat.add_mod_mod, Nat.add_sub_cancel' hk]

theorem Outcome.turn_le (o : Outcome α) (k : ℕ) : o.turn k = 2 * k ∨ o.turn k = 2 * k + 1 := by
  cases o <;> simp [Outcome.turn]

theorem Inv.position_le (h : Inv cap s) : s.position ≤ s.recvs := by
  have ht := h.taker
  unfold State.position
  split <;> simp_all [TakerOk]

theorem Inv.recvs_le_of_pending (h : Inv cap s) (hk : s.outcome k = .pending) : s.recvs ≤ k := by
  by_contra hlt
  rcases h.passed k (by omega) with ⟨v, hv⟩ | hv
  · rw [hv] at hk
    cases hk
  · rw [hv] at hk
    cases hk

theorem Inv.lt_of_clear (h : Inv cap s) (hk : s.outcome k = .pending) (hs : s.slots (k % cap) = 2 * k) :
    s.position ≤ k ∧ k < s.position + cap := by
  have hle : s.position ≤ k := h.position_le.trans (h.recvs_le_of_pending hk)
  obtain ⟨k', hle', hlt', hmod⟩ := exists_window h.pos s.position k hle
  have hturn := h.window k' hle' hlt'
  rw [hmod, hs] at hturn
  have := (s.outcome k').turn_le k'
  omega

variable {v : α}

theorem Inv.slot_of_published (h : Inv cap s) (hle : s.position ≤ k)
    (hk : s.outcome k = .published v) : s.slots (k % cap) = 2 * k + 1 := by
  rw [h.window k hle (h.stored k v hle hk).1, hk]
  rfl

variable {x : Holder α}

theorem HolderOk.of_number (h : HolderOk cap s x) (hk : x.number = some k) : k < s.sends ∧ s.outcome k = .pending := by
  cases x with
  | out => cases hk
  | waiting k' v => cases hk; exact h
  | clear k' v | filled k' v => cases hk; exact ⟨h.1, h.2.1⟩

variable {i : ℕ}

theorem forall_update {P : Holder α → Prop} {f : ℕ → Holder α} (hx : P x)
    (h : ∀ j, j ≠ i → P (f j)) (j : ℕ) : P (update f i x j) := by
  by_cases hj : j = i
  · rw [hj, update_self]
    exact hx
  · rw [update_of_ne hj]
    exact h j hj

theorem distinct_update {f : ℕ → Holder α} (h : ∀ i j k, (f i).number = some k → (f j).number = some k → i = j)
    (hx : ∀ k, x.number = some k → ∀ j, j ≠ i → (f j).number ≠ some k) (j j' k : ℕ)
    (hj : (update f i x j).number = some k) (hj' : (update f i x j').number = some k) : j = j' := by
  by_cases hji : j = i <;> by_cases hji' : j' = i
  · rw [hji, hji']
  · rw [hji, update_self] at hj
    rw [update_of_ne hji'] at hj'
    exact absurd hj' (hx k hj j' hji')
  · rw [hji', update_self] at hj'
    rw [update_of_ne hji] at hj
    exact absurd hj (hx k hj' j hji)
  · rw [update_of_ne hji] at hj
    rw [update_of_ne hji'] at hj'
    exact h j j' k hj hj'

theorem Inv.other_number (h : Inv cap s) (hi : (s.holders i).number = some k) :
    ∀ j, j ≠ i → (s.holders j).number ≠ some k :=
  fun j hj hk => hj (h.distinct j i k hk hi)

theorem Inv.take (h : Inv cap s) (v : α) :
    Inv cap { s with sends := s.sends + 1, holders := update s.holders i (.waiting s.sends v) } := by
  refine { h with holders := ?_, distinct := ?_, fresh := fun k hk => h.fresh k (Nat.le_of_succ_le hk) }
  · refine forall_update ⟨Nat.lt_succ_self _, h.fresh s.sends le_rfl⟩ fun j _ => ?_
    have hj := h.holders j
    revert hj
    cases s.holders j <;> simp only [HolderOk] <;> grind
  · refine distinct_update h.distinct fun k hk j _ hj => ?_
    cases hk
    exact absurd ((h.holders j).of_number hj).1 (Nat.lt_irrefl _)

theorem Inv.enter (h : Inv cap s) (hi : s.holders i = .waiting k v)
    (hs : s.slots (k % cap) = 2 * k) : Inv cap { s with holders := update s.holders i (.clear k v) } := by
  have hok := h.holders i
  rw [hi] at hok
  refine { h with holders := forall_update ⟨hok.1, hok.2, hs⟩ fun j _ => h.holders j, distinct := ?_ }
  exact distinct_update h.distinct fun k' hk' => h.other_number (by rw [hi]; exact hk')

theorem Inv.fill (h : Inv cap s) (hi : s.holders i = .clear k v) :
    Inv cap { s with data := update s.data (k % cap) v, holders := update s.holders i (.filled k v) } := by
  have hok := h.holders i
  rw [hi] at hok
  obtain ⟨hlt, hpending, hslot⟩ := hok
  refine { h with holders := ?_, distinct := ?_, stored := ?_ }
  · refine forall_update ⟨hlt, hpending, hslot, update_self ..⟩ fun j hj => ?_
    have hother := h.other_number (k := k) (by rw [hi]; rfl) j hj
    have hj := h.holders j
    cases hx : s.holders j with
    | filled k' v' =>
      rw [hx] at hj hother
      -- the slot of the other number shows another turn, so it is another slot
      have hne : k' % cap ≠ k % cap := fun heq => hother (by
        have := hj.2.2.1
        rw [heq, hslot] at this
        simp only [Holder.number, Option.some.injEq]
        omega)
      exact ⟨hj.1, hj.2.1, hj.2.2.1, (update_of_ne hne ..).trans hj.2.2.2⟩
    | _ => rw [hx] at hj; exact hj
  · exact distinct_update h.distinct fun k' hk' => h.other_number (by rw [hi]; exact hk')
  · intro k' v' hle hk'
    have hturn := h.slot_of_published hle hk'
    have hne : k' % cap ≠ k % cap := fun heq => by
      rw [heq, hslot] at hturn
      omega
    obtain ⟨hlt', hdata⟩ := h.stored k' v' hle hk'
    exact ⟨hlt', (update_of_ne hne ..).trans hdata⟩

section
theorem Inv.delivered_update (h : Inv cap s) (hk : s.outcome k = .pending) (o : Outcome α) :
    ({ s with outcome := update s.outcome k o } : State α).inHand = s.inHand ∧
      ((List.range s.recvs).flatMap fun j => (update s.outcome k o j).entry j) =
        (List.range s.recvs).flatMap fun j => (s.outcome j).entry j := by
  have hle := h.recvs_le_of_pending hk
  have ht := h.taker
  refine ⟨?_, ?_⟩
  · unfold State.inHand
    dsimp only
    split
    next k' heq =>
      rw [heq] at ht
      have hne : k' ≠ k := by
        have := ht.1
        omega
      rw [update_of_ne hne]
    next => rfl
    next => rfl
    next => rfl
  · apply flatMap_congr
    intro j hj
    have hne : j ≠ k := by
      have := List.mem_range.mp hj
      omega
    rw [update_of_ne hne]

theorem Inv.takerOk_update (h : Inv cap s) (hk : s.outcome k = .pending) (o : Outcome α) (skips : Finset ℕ)
    (hskips : ∀ j, j ∈ skips → j ∈ s.skips ∨ j = k) :
    TakerOk cap { s with outcome := update s.outcome k o, skips := skips } s.taker := by
  have hle := h.recvs_le_of_pending hk
  have ht := h.taker
  cases htaker : s.taker with
  | ready => trivial
  | full k' => rw [htaker] at ht; exact ht
  | taking k' | freeing k' v | holding k' v | passed k' =>
    rw [htaker] at ht
    exact ⟨ht.1, by simpa only [update_of_ne (show k' ≠ k by have := ht.1; omega)] using ht.2⟩
  | passing k' =>
    rw [htaker] at ht
    have hne : k' ≠ k := by
      rintro rfl
      have hskipped := ht.2.1
      rw [hk] at hskipped
      cases hskipped
    refine ⟨ht.1, by simpa only [update_of_ne hne] using ht.2.1, fun hin => ?_⟩
    exact (hskips k' hin).elim ht.2.2 hne

theorem Inv.holders_update (h : Inv cap s) {i : ℕ} (hi : (s.holders i).number = some k) (o : Outcome α)
    {slots : ℕ → ℕ} (hslots : ∀ j, j ≠ k → s.slots (j % cap) = 2 * j → slots (j % cap) = 2 * j) (j : ℕ) :
    HolderOk cap { s with outcome := update s.outcome k o, slots := slots } (update s.holders i .out j) := by
  revert j
  refine forall_update trivial fun j hj => ?_
  have hother := h.other_number hi j hj
  have hok := h.holders j
  cases hx : s.holders j with
  | out => trivial
  | waiting k' v | clear k' v | filled k' v =>
    rw [hx] at hok hother
    have hne : k' ≠ k := fun heq => hother (by rw [heq]; rfl)
    simp only [HolderOk, update_of_ne hne] at hok ⊢
    grind

end

theorem Inv.distinct_out (h : Inv cap s) (i : ℕ) (j j' k : ℕ)
    (hj : (update s.holders i .out j).number = some k) (hj' : (update s.holders i .out j').number = some k) : j = j' :=
  distinct_update h.distinct (fun _ hk => by cases hk) j j' k hj hj'

theorem Inv.passed_update (h : Inv cap s) (hk : s.outcome k = .pending) (o : Outcome α) (j : ℕ) (hj : j < s.recvs) :
    (∃ v, update s.outcome k o j = .published v) ∨ update s.outcome k o j = .skipped := by
  have hne : j ≠ k := by
    have := h.recvs_le_of_pending hk
    omega
  rw [update_of_ne hne]
  exact h.passed j hj

theorem Inv.fresh_update (h : Inv cap s) (hk : k < s.sends) (o : Outcome α) (j : ℕ) (hj : s.sends ≤ j) :
    update s.outcome k o j = .pending := by
  rw [update_of_ne (by omega)]
  exact h.fresh j hj

theorem Inv.publish (h : Inv cap s) (hi : s.holders i = .filled k v) : Inv cap { s with
      slots := update s.slots (k % cap) (2 * k + 1)
      outcome := update s.outcome k (.published v)
      holders := update s.holders i .out } := by
  have hok := h.holders i
  rw [hi] at hok
  obtain ⟨hlt, hpending, hslot, hdata⟩ := hok
  obtain ⟨hge, hwindow⟩ := h.lt_of_clear hpending hslot
  have hnumber : (s.holders i).number = some k := by rw [hi]; rfl
  -- a number with another turn has another slot
  have hother : ∀ j, j ≠ k → s.slots (j % cap) = 2 * j → update s.slots (k % cap) (2 * k + 1) (j % cap) = 2 * j := by
    intro j hj hjs
    rwa [update_of_ne]
    intro heq
    rw [heq, hslot] at hjs
    omega
  have htaker : TakerOk cap { s with
      slots := update s.slots (k % cap) (2 * k + 1), outcome := update s.outcome k (.published v) } s.taker := by
    have ht := h.takerOk_update hpending (.published v) s.skips fun j hj => .inl hj
    cases htk : s.taker with
    | full k' =>
      rw [htk] at ht
      refine ⟨ht.1, ?_⟩
      simp only
      rw [update_of_ne]
      · exact ht.2
      intro heq
      have := ht.2
      rw [heq, hslot] at this
      omega
    | _ => rw [htk] at ht; exact ht
  exact { h with
    taker := htaker
    holders := h.holders_update hnumber _ hother
    distinct := h.distinct_out i
    window := by
      intro j hj hj'
      by_cases hjk : j = k
      · subst hjk
        simp [Outcome.turn]
      · have hmod : j % cap ≠ k % cap := fun heq => hjk (eq_of_mod_eq ⟨hj, hj'⟩ ⟨hge, hwindow⟩ heq)
        simp only [update_of_ne hmod, update_of_ne hjk]
        exact h.window j hj hj'
    stored := by
      intro j w hj hjw
      by_cases hjk : j = k
      · subst hjk
        simp only [update_self, Outcome.published.injEq] at hjw
        exact ⟨hwindow, hdata.trans hjw⟩
      · simp only [update_of_ne hjk] at hjw
        exact h.stored j w hj hjw
    fresh := h.fresh_update hlt _
    passed := h.passed_update hpending _
    skips := by
      intro j hj
      obtain ⟨hle, hskipped⟩ := h.skips j hj
      have hne : j ≠ k := by
        rintro rfl
        rw [hpending] at hskipped
        cases hskipped
      exact ⟨hle, by simpa only [update_of_ne hne] using hskipped⟩
    delivered := by
      obtain ⟨hhand, hlist⟩ := h.delivered_update hpending (.published v)
      exact (congrArg (s.delivered ++ ·) hhand).trans (h.delivered.trans hlist.symm) }

theorem Inv.giveUp (h : Inv cap s) (hi : s.holders i = .waiting k v) {o : Outcome α}
    (ho : o.turn k = 2 * k) (hvalue : ∀ w, o ≠ .published w) {skips : Finset ℕ}
    (hskips : ∀ j, j ∈ skips → j ∈ s.skips ∨ j = k ∧ o = .skipped) : Inv cap { s with
      skips := skips
      outcome := update s.outcome k o
      holders := update s.holders i .out } := by
  have hok := h.holders i
  rw [hi] at hok
  obtain ⟨hlt, hpending⟩ := hok
  have hnumber : (s.holders i).number = some k := by rw [hi]; rfl
  exact { h with
    taker := h.takerOk_update hpending o skips fun j hj => (hskips j hj).imp_right And.left
    holders := h.holders_update hnumber o fun _ _ hs => hs
    distinct := h.distinct_out i
    window := by
      intro j hj hj'
      have hw := h.window j hj hj'
      by_cases hjk : j = k
      · subst hjk
        rw [hpending] at hw
        simp only [update_self, ho]
        exact hw
      · simpa only [update_of_ne hjk] using hw
    stored := by
      intro j w hj hjw
      by_cases hjk : j = k
      · subst hjk
        simp only [update_self] at hjw
        exact absurd hjw (hvalue w)
      · simp only [update_of_ne hjk] at hjw
        exact h.stored j w hj hjw
    fresh := h.fresh_update hlt o
    passed := h.passed_update hpending o
    skips := by
      intro j hj
      by_cases hjk : j = k
      · subst hjk
        rcases hskips j hj with hin | ⟨-, rfl⟩
        · have := (h.skips j hin).2
          rw [hpending] at this
          cases this
        · exact ⟨h.recvs_le_of_pending hpending, update_self ..⟩
      · simp only [update_of_ne hjk]
        exact h.skips j ((hskips j hj).resolve_right fun hk => hjk hk.1)
    delivered := by
      obtain ⟨hhand, hlist⟩ := h.delivered_update hpending o
      exact (congrArg (s.delivered ++ ·) hhand).trans (h.delivered.trans hlist.symm) }

section
variable (h : Inv cap s)
include h

theorem Inv.find (ht : s.taker = .ready) (hs : s.slots (s.recvs % cap) = 2 * s.recvs + 1) :
    Inv cap { s with taker := .full s.recvs } := by
  have hposition : s.position = s.recvs := by simp [State.position, ht]
  have hhand : s.inHand = [] := by simp [ht]
  exact { h with
    taker := ⟨rfl, hs⟩
    window := hposition ▸ h.window
    stored := hposition ▸ h.stored
    delivered := (congrArg (s.delivered ++ ·) hhand.symm).trans h.delivered }

theorem Inv.published_of_full (hk : s.position = k) (hs : s.slots (k % cap) = 2 * k + 1) :
    ∃ v, s.outcome k = .published v := by
  have hturn := h.window k hk.le (by have := h.pos; omega)
  cases ho : s.outcome k with
  | published v => exact ⟨v, rfl⟩
  | _ =>
    rw [ho] at hturn
    simp only [Outcome.turn] at hturn
    omega

omit h in
theorem range_succ_flatMap (f : ℕ → List (ℕ × α)) (n : ℕ) :
    (List.range (n + 1)).flatMap f = (List.range n).flatMap f ++ f n := by
  rw [range_succ, flatMap_append, flatMap_singleton]

theorem Inv.advance (ht : s.taker = .full k) : Inv cap { s with recvs := k + 1, taker := .taking k } := by
  have hok := h.taker
  rw [ht] at hok
  obtain ⟨hrecvs, hslot⟩ := hok
  have hposition : s.position = k := by simp [State.position, ht, hrecvs]
  have hhand : s.inHand = [] := by simp [ht]
  have hpublished := h.published_of_full hposition hslot
  exact { h with
    taker := ⟨rfl, hpublished⟩
    window := hposition ▸ h.window
    stored := hposition ▸ h.stored
    passed := by
      intro j hj
      rcases Nat.lt_succ_iff_lt_or_eq.mp hj with hj | rfl
      · exact h.passed j (by omega)
      · exact .inl hpublished
    skips := by
      intro j hj
      obtain ⟨hle, hskipped⟩ := h.skips j hj
      refine ⟨?_, hskipped⟩
      have hne : j ≠ k := by
        rintro rfl
        obtain ⟨v, hv⟩ := hpublished
        rw [hv] at hskipped
        cases hskipped
      simp only
      omega
    delivered := by
      have hd := h.delivered
      rw [hhand, append_nil, hrecvs] at hd
      change s.delivered ++ (s.outcome k).entry k = _
      rw [hd, range_succ_flatMap] }

theorem Inv.read (ht : s.taker = .taking k) : Inv cap { s with taker := .freeing k (s.data (k % cap)) } := by
  have hok := h.taker
  rw [ht] at hok
  obtain ⟨hrecvs, v, hv⟩ := hok
  have hposition : s.position = k := by simp [State.position, ht]
  have hdata : s.data (k % cap) = v := (h.stored k v hposition.le hv).2
  have hhand : s.inHand = [(k, v)] := by simp [ht, hv]
  exact { h with
    taker := ⟨hrecvs, hdata ▸ hv⟩
    window := hposition ▸ h.window
    stored := hposition ▸ h.stored
    delivered := by
      have hd := h.delivered
      rw [hhand, ← hdata] at hd
      exact hd }

theorem Inv.free_slot (hposition : s.position = k) (hpassed : s.outcome k ≠ .pending) :
    (∀ i, HolderOk cap { s with slots := update s.slots (k % cap) (2 * (k + cap)) } (s.holders i)) ∧
      (∀ j, k + 1 ≤ j → j < k + 1 + cap → update s.slots (k % cap) (2 * (k + cap)) (j % cap) = (s.outcome j).turn j) ∧
      ∀ j v, k + 1 ≤ j → s.outcome j = .published v → j < k + 1 + cap ∧ s.data (j % cap) = v := by
  have hpos := h.pos
  have hslot : s.slots (k % cap) = 2 * k ∨ s.slots (k % cap) = 2 * k + 1 := by
    rw [h.window k hposition.le (by omega)]
    exact (s.outcome k).turn_le k
  refine ⟨fun i => ?_, fun j hj hj' => ?_, fun j v hj hv => ?_⟩
  · have hok := h.holders i
    cases hx : s.holders i with
    | out | waiting => rw [hx] at hok; exact hok
    | clear k' v | filled k' v =>
      rw [hx] at hok
      have hne : k' % cap ≠ k % cap := by
        intro heq
        have hk' := hok.2.2
        simp only [heq] at hk'
        have hkk : k' = k := by omega
        rw [hkk] at hok
        exact hpassed hok.2.1
      simpa only [HolderOk, update_of_ne hne] using hok
  · by_cases hlast : j = k + cap
    · have hpending : ∀ v, s.outcome j ≠ .published v := fun v hv => by
        have := (h.stored j v (by omega) hv).1
        omega
      rw [hlast, Nat.add_mod_right, update_self, ← hlast]
      cases ho : s.outcome j with
      | published v => exact absurd ho (hpending v)
      | _ => rfl
    · have hne : j % cap ≠ k % cap := fun heq => by
        have := eq_of_mod_eq (n := k) ⟨by omega, by omega⟩ ⟨le_rfl, by omega⟩ heq
        omega
      rw [update_of_ne hne]
      exact h.window j (by omega) (by omega)
  · obtain ⟨hlt, hdata⟩ := h.stored j v (by omega) hv
    exact ⟨by omega, hdata⟩

theorem Inv.free {v : α} (ht : s.taker = .freeing k v) :
    Inv cap { s with slots := update s.slots (k % cap) (2 * (k + cap)), taker := .holding k v } := by
  have hok := h.taker
  rw [ht] at hok
  obtain ⟨hrecvs, hv⟩ := hok
  obtain ⟨hholders, hwindow, hstored⟩ := h.free_slot (k := k) (by simp [State.position, ht]) (by simp [hv])
  have hhand : s.inHand = [(k, v)] := by simp [ht]
  exact { h with
    taker := ⟨hrecvs, hv⟩
    holders := hholders
    window := by simpa only [State.position, hrecvs] using hwindow
    stored := by simpa only [State.position, hrecvs] using hstored
    delivered := (congrArg (s.delivered ++ ·) hhand.symm).trans h.delivered }

theorem Inv.deliver {v : α} (ht : s.taker = .holding k v) :
    Inv cap { s with delivered := s.delivered ++ [(k, v)], taker := .ready } := by
  have hposition : s.position = s.recvs := by simp [State.position, ht]
  have hhand : s.inHand = [(k, v)] := by simp [ht]
  exact { h with
    taker := trivial
    window := hposition ▸ h.window
    stored := hposition ▸ h.stored
    delivered := by
      have hd := h.delivered
      rw [hhand] at hd
      simpa only [State.inHand, append_nil] using hd }

theorem Inv.findSkip (ht : s.taker = .ready) (hk : s.recvs ∈ s.skips) :
    Inv cap { s with skips := s.skips.erase s.recvs, taker := .passing s.recvs } := by
  have hposition : s.position = s.recvs := by simp [State.position, ht]
  have hhand : s.inHand = [] := by simp [ht]
  exact { h with
    taker := ⟨rfl, (h.skips _ hk).2, by simp⟩
    window := hposition ▸ h.window
    stored := hposition ▸ h.stored
    skips := fun j hj => h.skips j (Finset.mem_of_mem_erase hj)
    delivered := (congrArg (s.delivered ++ ·) hhand.symm).trans h.delivered }

theorem Inv.advanceSkip (ht : s.taker = .passing k) : Inv cap { s with recvs := k + 1, taker := .passed k } := by
  have hok := h.taker
  rw [ht] at hok
  obtain ⟨hrecvs, hskipped, hnot⟩ := hok
  have hposition : s.position = k := by simp [State.position, ht, hrecvs]
  have hhand : s.inHand = [] := by simp [ht]
  exact { h with
    taker := ⟨rfl, hskipped⟩
    window := hposition ▸ h.window
    stored := hposition ▸ h.stored
    passed := by
      intro j hj
      rcases Nat.lt_succ_iff_lt_or_eq.mp hj with hj | rfl
      · exact h.passed j (by omega)
      · exact .inr hskipped
    skips := by
      intro j hj
      obtain ⟨hle, hj'⟩ := h.skips j hj
      have hne : j ≠ k := fun heq => hnot (heq ▸ hj)
      exact ⟨by simp only; omega, hj'⟩
    delivered := by
      have hd := h.delivered
      rw [hhand, append_nil, hrecvs] at hd
      change s.delivered ++ [] = _
      rw [append_nil, hd, range_succ_flatMap, hskipped]
      exact (append_nil _).symm }

theorem Inv.freeSkip (ht : s.taker = .passed k) :
    Inv cap { s with slots := update s.slots (k % cap) (2 * (k + cap)), taker := .ready } := by
  have hok := h.taker
  rw [ht] at hok
  obtain ⟨hrecvs, hskipped⟩ := hok
  obtain ⟨hholders, hwindow, hstored⟩ := h.free_slot (k := k) (by simp [State.position, ht]) (by simp [hskipped])
  have hhand : s.inHand = [] := by simp [ht]
  exact { h with
    taker := trivial
    holders := hholders
    window := by simpa only [State.position, hrecvs] using hwindow
    stored := by simpa only [State.position, hrecvs] using hstored
    delivered := (congrArg (s.delivered ++ ·) hhand.symm).trans h.delivered }

end

theorem Inv.step (h : Inv cap s) (hstep : Step cap s s') : Inv cap s' := by
  cases hstep with
  | take i v => exact h.take v
  | enter i k v hi hs => exact h.enter hi hs
  | fill i k v hi => exact h.fill hi
  | publish i k v hi => exact h.publish hi
  | skip i k v hi =>
    refine h.giveUp hi rfl (by simp) fun j hj => ?_
    exact (Finset.mem_insert.mp hj).elim (fun hk => .inr ⟨hk, rfl⟩) .inl
  | abandon i k v hi => exact h.giveUp hi rfl (by simp) fun j hj => .inl hj
  | find ht hs => exact h.find ht hs
  | advance k ht => exact h.advance ht
  | read k ht => exact h.read ht
  | free k v ht => exact h.free ht
  | deliver k v ht => exact h.deliver ht
  | findSkip ht hk => exact h.findSkip ht hk
  | advanceSkip k ht => exact h.advanceSkip ht
  | freeSkip k ht => exact h.freeSkip ht

def State.given (s : State α) : ℕ :=
  match s.taker with
  | .taking k | .freeing k _ | .holding k _ => k
  | _ => s.recvs

theorem Inv.delivered_eq (h : Inv cap s) :
    s.delivered = (List.range s.given).flatMap fun k => (s.outcome k).entry k := by
  have hd := h.delivered
  have ht := h.taker
  cases htaker : s.taker with
  | ready | full k | passing k | passed k => simpa [State.given, htaker] using hd
  | taking k =>
    rw [htaker] at ht
    simpa [State.given, htaker, ht.1, range_succ] using hd
  | freeing k v | holding k v =>
    rw [htaker] at ht
    simpa [State.given, htaker, ht.1, ht.2, range_succ] using hd

theorem mem_entries {outcome : ℕ → Outcome α} {n : ℕ} {v : α} :
    (k, v) ∈ (List.range n).flatMap (fun k => (outcome k).entry k) ↔ k < n ∧ outcome k = .published v := by
  rw [mem_flatMap]
  constructor
  · rintro ⟨j, hj, hin⟩
    cases ho : outcome j with
    | published w =>
      obtain ⟨rfl, rfl⟩ : k = j ∧ v = w := by simpa [ho] using hin
      exact ⟨List.mem_range.mp hj, ho⟩
    | _ => simp [ho] at hin
  · rintro ⟨hk, ho⟩
    exact ⟨k, List.mem_range.mpr hk, by simp [ho]⟩

theorem entries_pairwise (outcome : ℕ → Outcome α) (n : ℕ) :
    (((List.range n).flatMap fun k => (outcome k).entry k).map Prod.fst).Pairwise (· < ·) := by
  induction n with
  | zero => simp
  | succ n ih =>
    rw [range_succ_flatMap, map_append, pairwise_append]
    refine ⟨ih, ?_, ?_⟩
    · cases outcome n <;> simp
    rintro k hk j hj
    obtain ⟨⟨k', v⟩, hin, rfl⟩ := List.mem_map.mp hk
    have hlt := (mem_entries.mp hin).1
    cases ho : outcome n with
    | published w =>
      obtain rfl : j = n := by simpa [ho] using hj
      exact hlt
    | _ => simp [ho] at hj

theorem Inv.published_of_slot (h : Inv cap s) (hk : s.position ≤ k) (hs : s.slots (k % cap) = 2 * k + 1) :
    ∃ v, s.outcome k = .published v ∧ s.data (k % cap) = v := by
  obtain ⟨k', hle, hlt, hmod⟩ := exists_window h.pos s.position k hk
  have hturn := h.window k' hle hlt
  rw [hmod, hs] at hturn
  obtain rfl : k' = k := by
    rcases (s.outcome k').turn_le k' with ht | ht <;> omega
  cases ho : s.outcome k' with
  | published v => exact ⟨v, rfl, (h.stored k' v hle ho).2⟩
  | _ =>
    rw [ho] at hturn
    simp only [Outcome.turn] at hturn
    omega

theorem Inv.lt_sends (h : Inv cap s) (hk : s.outcome k ≠ .pending) : k < s.sends := by
  by_contra hge
  exact hk (h.fresh k (by omega))

end Vx.Lib.SlotRing
