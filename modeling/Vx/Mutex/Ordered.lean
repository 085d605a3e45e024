import Vx.Mutex.Invariant
import Vx.Wait.Sound

namespace Vx.Mutex

open Relation (ReflTransGen)
open Wait (Fibers)

variable {ι W B S R : Type} [DecidableEq ι] [DecidableEq W] [DecidableEq B] [DecidableEq S] [Fintype ι] [Fintype B]
  {set : Setting ι W B S R} {s₀ s : Wait.State ι (Memory ι R) (Word W) B S Place} {t d : ι}

inductive WakeToCome (set : Setting ι W B S R) (s : Wait.State ι (Memory ι R) (Word W) B S Place) (ticket : ℤ) (d : ι) : Prop
  | look (hd : s.tasks d = .running (.look ticket)) (hsleepers : s.mem.sleepers > 0)
  | wake (hd : s.tasks d = .running (.wake ticket))
  | begun {b : B} {which : Fibers (Word W)} (hd : (s.tasks d).BeforeTake b which (.dropped ticket))
      (hword : .serving ∈ set.system.words b which)

structure Start (set : Setting ι W B S R) (s : Wait.State ι (Memory ι R) (Word W) B S Place) : Prop where
  initial : s.Initial set.system
  new : ∃ rest, s.mem = .new rest
  idle : ∀ t, (s.tasks t).cont = .idle

omit [DecidableEq B] [DecidableEq S] [Fintype B] in
theorem Start.inv (h : Start set s) : Inv (s.abs set.system) := by
  obtain ⟨rest, hmem⟩ := h.new
  refine inv_new rest hmem fun t => ?_
  have hidle := h.idle t
  rcases h.initial.status t with ⟨⟨k, hk⟩, -⟩ | ⟨⟨k, hk⟩, -⟩ <;> rw [hk] at hidle <;> cases hidle <;>
    simp only [Wait.State.abs, hk, Wait.Status.phase]

omit [Fintype ι] [Fintype B] in
theorem Start.running (h : Start set s₀) (hrun : ReflTransGen (Wait.State.Next set.system) s₀ s) {k : Place} {ticket : ℤ}
    (ht : (s.tasks t).cont = k) (hk : k = .look ticket ∨ k = .wake ticket) : s.tasks t = .running k := by
  obtain ⟨k', hk'⟩ : ∃ k', s.tasks t = .running k' := by
    refine Wait.running_of_cont (P := fun k => k = .look ticket ∨ k = .wake ticket) (fun t k x c k' hact hk' => ?_)
      (fun t k x b which k' hact hk' => ?_) (fun t ht => ?_) hrun t (by rwa [ht])
    · rcases does_wait (.wait hact) with ⟨w, -, -, rfl⟩ | ⟨ticket, -, -, rfl⟩ <;> rcases hk' with hk' | hk' <;> cases hk'
    · rcases does_wake (.wake hact) with ⟨-, rfl⟩ | ⟨ticket, -, rfl, -⟩ <;> rcases hk' with hk' | hk' <;> cases hk'
    · rw [h.idle] at ht
      rcases ht with ht | ht <;> cases ht
  rw [hk'] at ht
  rw [hk', ← ht]
  rfl

omit [DecidableEq B] [DecidableEq S] [Fintype ι] [Fintype B] in
theorem waking_status {words : Set (Word W)} {k : Place} (h : (s.abs set.system).tasks d = .waking words k) :
    ∃ b which, (s.tasks d).BeforeTake b which k ∧ words = set.system.words b which := by
  simp only [Wait.State.abs] at h
  cases hst : s.tasks d with
  | wakeLocking b which k' =>
    rw [hst] at h
    cases h
    exact ⟨b, which, .inl rfl, rfl⟩
  | wakeHolding b which k' =>
    rw [hst] at h
    cases h
    exact ⟨b, which, .inr rfl, rfl⟩
  | asleep c seen k' | parking c k' | switched c k' | parked c k' =>
    rw [hst, Wait.Status.phase] at h
    split at h <;> cases h
  | _ =>
    rw [hst] at h
    cases h

omit [Fintype ι] [Fintype B] in
theorem wakeToCome_of_dropping (hstart : Start set s₀) (hrun : ReflTransGen (Wait.State.Next set.system) s₀ s) {ticket : ℤ}
    (h : Dropping ticket ((s.abs set.system).tasks d)) (hsleepers : s.mem.sleepers > 0) : WakeToCome set s ticket d := by
  have hcont := Wait.cont_phase set.system (s.tasks d) s.buckets d
  cases hphase : (s.abs set.system).tasks d with
  | running k =>
    rw [hphase] at h
    rw [show (s.tasks d).phase set.system s.buckets d = .running k from hphase] at hcont
    cases k with
    | look ticket' =>
      cases h
      exact .look (hstart.running hrun hcont.symm (.inl rfl)) hsleepers
    | wake ticket' =>
      cases h
      exact .wake (hstart.running hrun hcont.symm (.inr rfl))
    | _ => exact h.elim
  | waking words k =>
    rw [hphase] at h
    cases k with
    | dropped ticket' =>
      obtain ⟨rfl, hword⟩ := h
      obtain ⟨b, which, hd, rfl⟩ := waking_status hphase
      exact .begun hd hword
    | _ => exact h.elim
  | calling word value k | asleep word value k =>
    rw [hphase] at h
    exact h.elim

/-- While the tickets stay below the overflow of the word: at most one guard exists, the guards go to the tickets in the
order in which these were taken, and when the ticket that is served belongs to a task that sleeps in `lock`, a wake took
that task, or the task that dropped the last guard is about to wake it. -/
theorem lock_in_order (hstart : Start set s₀) (hrun : ReflTransGen (Wait.State.Next set.system) s₀ s)
    (htickets : s.mem.taken.length < 2 ^ 63) :
    s.mem.guards.length ≤ 1 ∧
    (s.mem.taken.map Prod.snd = (List.range s.mem.taken.length).map Nat.cast ∧ s.mem.granted <+: s.mem.taken) ∧
    ∀ t c, (s.tasks t).cont.ticket = some s.mem.serving → (s.tasks t).sleeping = some c →
      s.Woken set.system t ∨ ∃ d, WakeToCome set s (s.mem.serving - 1) d := by
  have hinv : Inv (s.abs set.system) := hstart.inv.reach (hstart.initial.reaches hrun) htickets
  refine ⟨?_, ⟨hinv.ledger.tickets, hinv.ledger.granted⟩, fun t c hticket hc => ?_⟩
  · have hmem : (s.abs set.system).mem = s.mem := rfl
    rcases hinv.ledger.guards with ⟨hguards, -⟩ | ⟨hguards, -⟩ <;> rw [hmem] at hguards <;> simp [hguards]
  rcases (hstart.initial.inv.reach hrun).asleep_or_woken hc with hasleep | hwoken
  · right
    have hfits := hinv.fits t
    rw [hasleep] at hfits
    cases hword : c.word with
    | other w =>
      rw [hword] at hfits
      have hidle : (s.tasks t).cont = .idle := hfits
      rw [hidle] at hticket
      cases hticket
    | serving =>
      rw [hword] at hfits hasleep
      obtain ⟨ticket, hretire, hle, hlt⟩ := hfits
      rw [hretire] at hticket
      cases hticket
      obtain ⟨d, hd⟩ := hinv.woken t _ _ hasleep (s.mem.serving - 1) (by omega) (by simp [Wait.State.abs])
      refine ⟨d, wakeToCome_of_dropping hstart hrun hd ?_⟩
      have hpos : 0 < announcedTasks fun t => ((s.abs set.system).tasks t).cont :=
        announcedTasks_pos (t := t) (hinv.announced_of_asleep hasleep)
      have hsleepers : s.mem.sleepers = _ := hinv.sleepers
      omega
  · exact .inl hwoken

def two : Setting (Fin 2) Unit Unit Unit Unit := ⟨fun _ => (), fun _ => none, fun _ _ => 0⟩

def twoStart : Wait.State (Fin 2) (Memory (Fin 2) Unit) (Word Unit) Unit Unit Place where
  mem := .new ()
  tasks _ := .running .idle
  buckets _ := .empty
  fiber _ := .running
  ready _ := []
  waiting := 0
  blocked _ := 0

theorem twoStart_start : Start two twoStart :=
  ⟨⟨fun _ _ => ⟨.idle, rfl⟩, fun _ h => (h rfl).elim, fun _ => rfl, fun _ => ⟨List.nodup_nil, fun _ => by simp [twoStart, two, Setting.system]⟩,
    rfl, fun _ => rfl⟩, ⟨(), rfl⟩, fun _ => rfl⟩

def twoMoves : List (Wait.Move (Fin 2) Unit (Choice Unit Unit Unit)) :=
  let input : Wait.Input := ⟨false, false, false, false⟩
  [.client 0 .lock, .client 0 .lock, .client 1 .lock, .client 1 .lock, .client 1 .lock, .client 1 .lock, .step 1 input,
    .step 1 input, .step 1 input, .step 1 input, .step 1 input, .client 0 (.drop 0)]

theorem lock_in_order_two : ∃ s, twoStart.run two.system twoMoves = some s ∧ s.mem.serving = 1 ∧
    (s.tasks 1).cont.ticket = some 1 ∧ (s.tasks 1).sleeping = some ⟨.serving, 0, false, false⟩ ∧
    (s.Woken two.system 1 ∨ ∃ d, WakeToCome two s 0 d) := by
  obtain ⟨s, hs, hserving, hticket, hsleeping, htickets⟩ : ∃ s, twoStart.run two.system twoMoves = some s ∧
      s.mem.serving = 1 ∧ (s.tasks 1).cont.ticket = some 1 ∧ (s.tasks 1).sleeping = some ⟨.serving, 0, false, false⟩ ∧
      s.mem.taken.length < 2 ^ 63 := ⟨_, rfl, by decide, by decide, by decide, by decide⟩
  obtain ⟨-, -, htold⟩ := lock_in_order twoStart_start (twoStart_start.initial.inv.run_reaches hs (.inl rfl)) htickets
  rw [hserving] at htold
  exact ⟨s, hs, hserving, hticket, hsleeping, htold 1 _ hticket hsleeping⟩

end Vx.Mutex
