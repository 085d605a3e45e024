import Vx.Channel.Ends

namespace Vx.Channel

open List Option
open Lib.SlotRing (Outcome Holder)
open Lib

variable {α : Type} {cap : ℕ}

section

def SendPc.heldNumber : SendPc α → Option ℕ
  | .countSkip k _ _ | .notify _ (.ok k _) => some k
  | .notify _ (.err k _ _ _) => k
  | pc => pc.holder.number

def Event.number : Event α → Option ℕ
  | .sent (.ok k _) => some k
  | .sent (.err k _ _ _) => k
  | _ => none

def State.numbers (s : State α) : List ℕ := s.log.filterMap Event.number

structure Numbers (s : State α) : Prop where
  held : ∀ i k, (s.senders i).heldNumber = some k → k < s.words.sends ∧ k ∉ s.numbers
  distinct : ∀ i j k, (s.senders i).heldNumber = some k → (s.senders j).heldNumber = some k → i = j
  nodup : s.numbers.Nodup
  below : ∀ k ∈ s.numbers, k < s.words.sends

variable {s : State α} {i : ℕ} {pc pc' : SendPc α} {w w' : Words α} {events : List (Event α)} {input : Input}

theorem ReleasePc.step_number (cap : ℕ) (stage : ReleasePc) (w : Words α) :
    (stage.step cap w).1.sends = w.sends ∧ (stage.step cap w).2.2.filterMap Event.number = [] := by
  cases stage with
  | scan k stop =>
    simp only [ReleasePc.step]
    split_ifs <;> exact ⟨rfl, rfl⟩
  | _ => exact ⟨rfl, rfl⟩

theorem SendPc.step_number (hstep : pc.step cap input w = some (w', pc', events)) (hpanicked : w'.panicked = false) :
    w'.sends = w.sends ∧ pc'.heldNumber = pc.heldNumber ∧ events.filterMap Event.number = [] ∨
      w'.sends = w.sends ∧ pc'.heldNumber = none ∧ events.filterMap Event.number = pc.heldNumber.toList ∨
      w'.sends = w.sends + 1 ∧ pc.heldNumber = none ∧ pc'.heldNumber = some w.sends ∧
        events.filterMap Event.number = [] := by
  cases pc with
  | unborn | idle | gone | cloneEnds => simp [SendPc.step] at hstep
  | number call =>
    cases hstep
    exact .inr (.inr ⟨rfl, rfl, rfl, rfl⟩)
  | enter call | readSlot k seen call | check k seen call =>
    simp only [SendPc.step] at hstep
    split at hstep <;> cases hstep <;> exact .inl ⟨rfl, rfl, rfl⟩
  | readReceiver k seen call =>
    simp only [SendPc.step] at hstep
    split at hstep
    · cases hstep
      exact .inl ⟨rfl, rfl, rfl⟩
    · cases hstep
      exact .inr (.inl ⟨rfl, rfl, rfl⟩)
  | readWake k call | write k call | publish k call | countSkip k call c | sleep k seen call | asleep k seen call
  | woken k call | clone =>
    cases hstep
    exact .inl ⟨rfl, rfl, rfl⟩
  | dropSender =>
    cases hstep
    refine .inl ⟨rfl, ?_, rfl⟩
    split <;> rfl
  | skip k call wasCancelled =>
    simp only [SendPc.step] at hstep
    split at hstep
    · cases hstep
      cases hpanicked
    · cases hstep
      exact .inl ⟨rfl, rfl, rfl⟩
  | notify stage result =>
    have hsame := stage.step_same w
    simp only [SendPc.step] at hstep
    split at hstep
    next heq =>
      rw [heq] at hsame
      cases hstep
      refine .inl ⟨hsame.sends, ?_, rfl⟩
      cases result <;> rfl
    next heq =>
      rw [heq] at hsame
      cases hstep
      refine .inr (.inl ⟨hsame.sends, rfl, ?_⟩)
      rcases result with ⟨k, v⟩ | ⟨_ | k, v, c, t⟩ <;> rfl
  | notifyDrop stage =>
    have hsame := stage.step_same w
    simp only [SendPc.step] at hstep
    split at hstep
    next heq =>
      rw [heq] at hsame
      cases hstep
      exact .inl ⟨hsame.sends, rfl, rfl⟩
    next heq =>
      rw [heq] at hsame
      cases hstep
      exact .inl ⟨hsame.sends, rfl, rfl⟩
  | release stage =>
    obtain ⟨hsends, hevents⟩ := stage.step_number cap w
    simp only [SendPc.step] at hstep
    split at hstep
    next heq =>
      rw [heq] at hsends hevents
      cases hstep
      exact .inl ⟨hsends, rfl, hevents⟩
    next heq =>
      rw [heq] at hsends hevents
      cases hstep
      exact .inl ⟨hsends, rfl, hevents⟩

theorem Numbers.afterSender (h : Numbers s) (hstep : (s.senders i).step cap input s.words = some (w', pc', events))
    (hpanicked : w'.panicked = false) : Numbers (s.afterSender i w' pc' events) := by
  have hnumbers : (s.afterSender i w' pc' events).numbers = s.numbers ++ events.filterMap Event.number := by
    simp [State.numbers]
  have hself : (s.afterSender i w' pc' events).senders i = pc' := by simp
  have hother : ∀ j, j ≠ i → (s.afterSender i w' pc' events).senders j = s.senders j := by
    intro j hj
    simp [hj]
  have hwords : (s.afterSender i w' pc' events).words = w' := rfl
  rcases SendPc.step_number hstep hpanicked with
    ⟨hsends, hsame, hevents⟩ | ⟨hsends, hnone, hevents⟩ | ⟨hsends, hnone, hnew, hevents⟩
  · have hheld : ∀ j, ((s.afterSender i w' pc' events).senders j).heldNumber = (s.senders j).heldNumber := by
      intro j
      by_cases hj : j = i
      · rw [hj, hself, hsame]
      · rw [hother j hj]
    rw [hevents, append_nil] at hnumbers
    exact ⟨by simpa only [hheld, hnumbers, hwords, hsends] using h.held,
      by simpa only [hheld] using h.distinct, hnumbers ▸ h.nodup,
      by simpa only [hnumbers, hwords, hsends] using h.below⟩
  · have hheld : ∀ j k, ((s.afterSender i w' pc' events).senders j).heldNumber = some k →
        j ≠ i ∧ (s.senders j).heldNumber = some k := by
      intro j k hk
      by_cases hj : j = i
      · rw [hj, hself, hnone] at hk
        cases hk
      · rw [hother j hj] at hk
        exact ⟨hj, hk⟩
    rw [hevents] at hnumbers
    constructor
    · intro j k hk
      obtain ⟨hj, hk⟩ := hheld j k hk
      obtain ⟨hlt, hnot⟩ := h.held j k hk
      refine ⟨by rw [hwords, hsends]; exact hlt, ?_⟩
      rw [hnumbers, mem_append, not_or]
      refine ⟨hnot, fun hin => hj ?_⟩
      exact h.distinct j i k hk (by simpa using hin)
    · intro j j' k hj hj'
      exact h.distinct j j' k (hheld j k hj).2 (hheld j' k hj').2
    · rw [hnumbers, nodup_append]
      refine ⟨h.nodup, ?_, ?_⟩
      · cases (s.senders i).heldNumber <;> simp
      · rintro k hk j hj rfl
        exact (h.held i k (by simpa using hj)).2 hk
    · intro k hk
      rw [hwords, hsends]
      rw [hnumbers, mem_append] at hk
      rcases hk with hk | hk
      · exact h.below k hk
      · exact (h.held i k (by simpa using hk)).1
  · have hheld : ∀ j k, ((s.afterSender i w' pc' events).senders j).heldNumber = some k →
        j = i ∧ k = s.words.sends ∨ j ≠ i ∧ (s.senders j).heldNumber = some k := by
      intro j k hk
      by_cases hj : j = i
      · rw [hj, hself, hnew, Option.some.injEq] at hk
        exact .inl ⟨hj, hk.symm⟩
      · rw [hother j hj] at hk
        exact .inr ⟨hj, hk⟩
    rw [hevents, append_nil] at hnumbers
    constructor
    · intro j k hk
      rw [hwords, hsends, hnumbers]
      rcases hheld j k hk with ⟨rfl, rfl⟩ | ⟨hj, hk⟩
      · refine ⟨by omega, fun hin => ?_⟩
        have := h.below _ hin
        omega
      · obtain ⟨hlt, hnot⟩ := h.held j k hk
        exact ⟨by omega, hnot⟩
    · intro j j' k hj hj'
      rcases hheld j k hj with ⟨rfl, rfl⟩ | ⟨hne, hk⟩ <;> rcases hheld j' _ hj' with ⟨rfl, hsame⟩ | ⟨hne', hk'⟩
      · rfl
      · have := (h.held j' _ hk').1
        omega
      · have := (h.held j k hk).1
        omega
      · exact h.distinct j j' k hk hk'
    · exact hnumbers ▸ h.nodup
    · intro k hk
      rw [hnumbers] at hk
      have := h.below k hk
      rw [hwords, hsends]
      omega

theorem RecvPc.step_number {pc pc' : RecvPc α} (hstep : pc.step cap input w = some (w', pc', events)) :
    w'.sends = w.sends ∧ events.filterMap Event.number = [] := by
  cases pc with
  | idle | gone => simp [RecvPc.step] at hstep
  | checkCancel k seen call | readSlot k seen call closed | readSkips k seen call closed
  | takeSkip k seen call closed =>
    simp only [RecvPc.step] at hstep
    split at hstep <;> cases hstep <;> exact ⟨rfl, rfl⟩
  | settle k seen call closed =>
    cases call with
    | tryRecv =>
      cases hstep
      exact ⟨rfl, rfl⟩
    | recv timed =>
      simp only [RecvPc.step, RecvCall.settle] at hstep
      split_ifs at hstep <;> cases hstep <;> exact ⟨rfl, rfl⟩
  | notify stage k v | notifySkip stage k call | notifyDrop stage =>
    have hsame := stage.step_same w
    simp only [RecvPc.step] at hstep
    split at hstep
    next heq =>
      rw [heq] at hsame
      cases hstep
      exact ⟨hsame.sends, rfl⟩
    next heq =>
      rw [heq] at hsame
      cases hstep
      exact ⟨hsame.sends, rfl⟩
  | release stage =>
    have hrelease := stage.step_number cap w
    simp only [RecvPc.step] at hstep
    split at hstep
    next heq =>
      rw [heq] at hrelease
      cases hstep
      exact hrelease
    next heq =>
      rw [heq] at hrelease
      cases hstep
      exact hrelease
  | _ =>
    cases hstep
    exact ⟨rfl, rfl⟩

theorem Numbers.of_held {s' : State α} (h : Numbers s) (hwords : s'.words.sends = s.words.sends)
    (hnumbers : s'.numbers = s.numbers) (hheld : ∀ j, (s'.senders j).heldNumber = (s.senders j).heldNumber) :
    Numbers s' :=
  ⟨by simpa only [hheld, hnumbers, hwords] using h.held, by simpa only [hheld] using h.distinct,
    hnumbers ▸ h.nodup, by simpa only [hnumbers, hwords] using h.below⟩

theorem Numbers.afterReceiver {pc' : RecvPc α} (h : Numbers s) (hsends : w'.sends = s.words.sends)
    (hevents : events.filterMap Event.number = []) : Numbers (s.afterReceiver w' pc' events) := by
  refine h.of_held hsends ?_ fun _ => rfl
  simp [State.numbers, hevents]

variable {s s' : State α} {outcome : ℕ → Outcome α}

theorem State.step_cases {action : Action α} (h : s.step cap action = some s') :
    (∃ i op, s.senders i = .idle ∧ s' = s.afterSender i s.words (SendOp.entry op) []) ∨
      (∃ i, s.senders i = .cloneEnds ∧ s' = s.afterClone i) ∨
      (∃ i input w' pc' events, (s.senders i).step cap input s.words = some (w', pc', events) ∧
        s' = s.afterSender i w' pc' events) ∨
      (∃ op, s.receiver = .idle ∧ s' = s.afterReceiver s.words (RecvOp.entry op) []) ∨
      ∃ input w' pc' events, s.receiver.step cap input s.words = some (w', pc', events) ∧
        s' = s.afterReceiver w' pc' events := by
  cases action with
  | callSender i op =>
    simp only [State.step] at h
    split at h
    next hpc =>
      cases h
      exact .inl ⟨i, op, hpc, by simp⟩
    next => cases h
  | sender i input =>
    simp only [State.step, State.stepSender] at h
    split at h
    next hpc =>
      cases h
      exact .inr (.inl ⟨i, hpc, rfl⟩)
    next =>
      split at h
      next heq =>
        cases h
        exact .inr (.inr (.inl ⟨i, input, _, _, _, heq, rfl⟩))
      next => cases h
  | callReceiver op =>
    simp only [State.step] at h
    split at h
    next hpc =>
      cases h
      exact .inr (.inr (.inr (.inl ⟨op, hpc, by simp⟩)))
    next => cases h
  | receiver input =>
    simp only [State.step, State.stepReceiver] at h
    split at h
    next heq =>
      cases h
      exact .inr (.inr (.inr (.inr ⟨input, _, _, _, heq, rfl⟩)))
    next => cases h

theorem Refines.callSender (h : Refines cap s outcome) (hpc : s.senders i = .idle) (op : SendOp α) :
    Refines cap (s.afterSender i s.words op.entry []) outcome := by
  refine h.quiet hpc .rfl ?_ rfl ?_ (by simp) (by intro _ _ _ h; cases h)
  · cases op <;> rfl
  · cases op <;> trivial

theorem Refines.callReceiver (h : Refines cap s outcome) (hpc : s.receiver = .idle) (op : RecvOp) :
    Refines cap (s.afterReceiver s.words op.entry []) outcome := by
  refine h.quietReceiver hpc .rfl ?_ rfl ?_ (by simp)
  · cases op <;> rfl
  · cases op <;> simp [RecvOp.entry]

theorem State.afterClone_senders (hpc : s.senders i = .cloneEnds) (hmade : s.senders s.made = .unborn) (j : ℕ) :
    (s.afterClone i).senders j = s.senders j ∨
      (s.afterClone i).senders j = .idle ∧ (s.senders j = .cloneEnds ∨ s.senders j = .unborn) := by
  by_cases hj : j = s.made
  · exact .inr ⟨by simp [hj], .inr (hj ▸ hmade)⟩
  by_cases hji : j = i
  · subst hji
    exact .inr ⟨by simp [hj], .inl hpc⟩
  · exact .inl (by simp [hj, hji])

theorem Refines.clone (h : Refines cap s outcome) (hpc : s.senders i = .cloneEnds)
    (hmade : s.senders s.made = .unborn) : Refines cap (s.afterClone i) outcome := by
  have hsenders := State.afterClone_senders hpc hmade
  have hring : (s.afterClone i).ring outcome = s.ring outcome := by
    have hholders : SendPc.holder ∘ (s.afterClone i).senders = SendPc.holder ∘ s.senders := by
      funext j
      simp only [Function.comp_apply]
      rcases hsenders j with hj | ⟨hj, hj' | hj'⟩
      · rw [hj]
      · rw [hj, hj']
        rfl
      · rw [hj, hj']
        rfl
    simp only [State.ring, hholders]
    rfl
  constructor
  · exact hring ▸ h.ring
  · exact h.cursor
  · intro j
    rcases hsenders j with hj | ⟨hj, -⟩
    · exact hj ▸ h.promised j
    · rw [hj]
      trivial
  · exact h.answered
  · intro k v hk
    rcases h.sentOk k v hk with hin | ⟨j, stage, hj⟩
    · exact .inl hin
    rcases hsenders j with hj' | ⟨-, hj' | hj'⟩
    · exact .inr ⟨j, stage, hj'.trans hj⟩
    · rw [hj] at hj'
      cases hj'
    · rw [hj] at hj'
      cases hj'
  · exact h.panicked

structure Sound (cap : ℕ) (s : State α) (outcome : ℕ → Outcome α) : Prop where
  refines : Refines cap s outcome
  ends : Ends cap s
  numbers : Numbers s

theorem Ends.receiver_ready (h : Ends cap s) (hends : s.words.ends = 0) : s.receiver.taker = .ready := by
  have hzero := h.weight_eq_zero hends none
  cases hpc : s.receiver <;> simp_all [State.weight]

theorem Ends.ends_of_sweep (h : Ends cap s) {who : Option ℕ} {stage : ReleasePc} (hwho : s.sweep who = some stage) :
    s.words.ends = 0 := by
  cases h.phase with
  | alive _ _ _ hnone => simp [hnone] at hwho
  | sweeping _ _ hends | ended hends => exact hends

theorem Sound.step (h : Sound cap s outcome) {action : Action α} (hstep : s.step cap action = some s') :
    ∃ outcome', Sound cap s' outcome' := by
  obtain ⟨href, hends, hnumbers⟩ := h
  rcases State.step_cases hstep with ⟨i, op, hpc, rfl⟩ | ⟨i, hpc, rfl⟩ | ⟨i, input, w', pc', events, hpc, rfl⟩ |
    ⟨op, hpc, rfl⟩ | ⟨input, w', pc', events, hpc, rfl⟩
  · refine ⟨outcome, href.callSender hpc op, hends.callSender hpc op, hnumbers.of_held rfl ?_ ?_⟩
    · simp [State.numbers]
    intro j
    by_cases hj : j = i
    · rw [hj, hpc]
      cases op <;> simp [SendOp.entry, SendPc.heldNumber]
    · simp [hj]
  · have hmade := hends.unborn s.made le_rfl
    refine ⟨outcome, href.clone hpc hmade, hends.clone hpc, hnumbers.of_held rfl rfl ?_⟩
    intro j
    rcases State.afterClone_senders hpc hmade j with hj | ⟨hj, hj' | hj'⟩
    · rw [hj]
    · rw [hj, hj']
      rfl
    · rw [hj, hj']
      rfl
  · have hforget : s.senders i = .release .forget → s.receiver.taker = .ready := by
      intro hi
      have hsweep : s.sweep (some i) = some .forget := by rw [State.sweep, hi]; rfl
      exact hends.receiver_ready (hends.ends_of_sweep hsweep)
    obtain ⟨outcome', href'⟩ := href.stepSender hforget hpc
    have hpanicked : w'.panicked = false := href'.panicked
    exact ⟨outcome', href', hends.stepSender hpc hpanicked, hnumbers.afterSender hpc hpanicked⟩
  · exact ⟨outcome, href.callReceiver hpc op, hends.callReceiver hpc op, hnumbers.afterReceiver rfl rfl⟩
  · obtain ⟨hsends, hevents⟩ := RecvPc.step_number hpc
    exact ⟨outcome, href.stepReceiver hpc, hends.stepReceiver hpc, hnumbers.afterReceiver hsends hevents⟩

theorem Sound.channel (hcap : 0 < cap) (buffer : ℕ → α) : Sound cap (State.channel buffer) fun _ => .pending := by
  have hsenders : ∀ i, (State.channel buffer).senders i = .idle ∨ (State.channel buffer).senders i = .unborn := by
    intro i
    by_cases hi : i = 0 <;> simp [State.channel, hi]
  have hholders : ∀ i, ((State.channel buffer).senders i).holder = .out := by
    intro i
    rcases hsenders i with hi | hi <;> rw [hi] <;> rfl
  have hnumbers : ∀ i, ((State.channel buffer).senders i).heldNumber = none := by
    intro i
    rcases hsenders i with hi | hi <;> rw [hi] <;> rfl
  refine ⟨⟨?_, by simp [State.channel], ?_, by simp [State.channel], by simp, rfl⟩, ?_, ?_⟩
  · constructor
    · exact hcap
    · trivial
    · intro i
      simp [-SendPc.holder, hholders, SlotRing.HolderOk]
    · intro i j k hi
      simp [-SendPc.holder, hholders, Holder.number] at hi
    · intro k _ hk
      have hlt : k < cap := by simpa [SlotRing.State.position, State.channel] using hk
      simp [State.channel, Nat.mod_eq_of_lt hlt, Outcome.turn]
    · intro k v _ hk
      cases hk
    · intro k _
      rfl
    · intro k hk
      simp [State.channel] at hk
    · intro k hk
      simp [State.channel] at hk
    · simp [State.channel, State.received, SlotRing.State.inHand]
  · intro i
    rcases hsenders i with hi | hi <;> rw [hi] <;> trivial
  · refine ⟨?_, ?_, ?_, .alive (by simp [State.channel]) rfl rfl ?_⟩
    · intro i hi
      have hne : i ≠ 0 := by
        change 1 ≤ i at hi
        omega
      simp [State.channel, hne]
    · simp [total, State.weight, State.channel]
    · intro _ _
      simp [total, State.uncounted, State.channel, SendPc.uncounted, RecvPc.uncounted]
    · intro who
      rcases who with _ | i
      · rfl
      · rcases hsenders i with hi | hi <;> simp [State.sweep, hi]
  · refine ⟨?_, ?_, by simp [State.numbers, State.channel], by simp [State.numbers, State.channel]⟩
    · intro i k hk
      rw [hnumbers i] at hk
      cases hk
    · intro i j k hk
      rw [hnumbers i] at hk
      cases hk

theorem Sound.run (h : Sound cap s outcome) {actions : List (Action α)} (hrun : s.run cap actions = some s') :
    ∃ outcome', Sound cap s' outcome' := by
  induction actions generalizing s outcome with
  | nil =>
    cases hrun
    exact ⟨outcome, h⟩
  | cons action actions ih =>
    obtain ⟨t, hstep, hrun⟩ := Option.bind_eq_some_iff.mp hrun
    obtain ⟨outcome', h'⟩ := h.step hstep
    exact ih h' hrun

variable {who : Option ℕ} {stage : ReleasePc}

def ReleasePc.rank (w : Words α) : ReleasePc → ℕ
  | .ends => 0
  | .readRecvs => 2 * (w.sends - w.recvs) + 6
  | .readSends k => 2 * (w.sends - k) + 5
  | .scan k stop => 2 * (stop - k) + 4
  | .drop k stop => 2 * (stop - k) + 3
  | .readSkips => 3
  | .forget => 2
  | .free => 1

theorem ReleasePc.step_rank {w w' : Words α} {dropped : List (ℕ × α)} {next : Option ReleasePc}
    {events : List (Event α)} (hok : SweepOk cap w dropped stage) (hstep : stage.step cap w = (w', next, events)) :
    w'.freed = true ∨ ∃ stage', next = some stage' ∧ stage' ≠ .ends ∧ stage'.rank w' < stage.rank w := by
  cases stage with
  | ends => exact hok.elim
  | readRecvs | readSends k | forget =>
    cases hstep
    exact .inr ⟨_, rfl, by simp, by simp [ReleasePc.rank]⟩
  | scan k stop =>
    simp only [ReleasePc.step] at hstep
    split_ifs at hstep <;> cases hstep <;> refine .inr ⟨_, rfl, by simp, ?_⟩ <;> simp only [ReleasePc.rank] <;> omega
  | drop k stop =>
    obtain ⟨hle, hlt, rfl, -⟩ := hok
    cases hstep
    refine .inr ⟨_, rfl, by simp, ?_⟩
    simp only [ReleasePc.rank]
    omega
  | readSkips =>
    cases hstep
    refine .inr ⟨_, rfl, ?_, ?_⟩
    · split <;> simp
    · split <;> simp [ReleasePc.rank]
  | free =>
    cases hstep
    exact .inl rfl

def endAction : Option ℕ → Action α
  | none => .receiver ⟨false, false⟩
  | some i => .sender i ⟨false, false⟩

theorem State.step_sweep (hwho : s.sweep who = some stage) :
    ∃ s' next events, s.step cap (endAction who) = some s' ∧ stage.step cap s.words = (s'.words, next, events) ∧
      s'.sweep who = next.bind ReleasePc.sweep := by
  cases who with
  | none =>
    obtain ⟨hpc, -⟩ : s.receiver = .release stage ∧ stage ≠ .ends := by
      simp only [State.sweep] at hwho
      cases hpc : s.receiver <;> simp [hpc, RecvPc.sweep] at hwho
      simp only [ReleasePc.sweep] at hwho
      split at hwho <;> simp_all
    simp only [endAction, State.step, State.stepReceiver, hpc, RecvPc.step]
    rcases hstep : stage.step cap s.words with ⟨w', _ | stage', events⟩ <;> exact ⟨_, _, _, rfl, rfl, rfl⟩
  | some i =>
    obtain ⟨hpc, -⟩ : s.senders i = .release stage ∧ stage ≠ .ends := by
      simp only [State.sweep] at hwho
      cases hpc : s.senders i <;> simp [hpc] at hwho
      simp only [ReleasePc.sweep] at hwho
      split at hwho <;> simp_all
    simp only [endAction, State.step, State.stepSender, hpc, SendPc.step]
    rcases hstep : stage.step cap s.words with ⟨w', _ | stage', events⟩
    · exact ⟨_, _, _, rfl, rfl, by simp [State.sweep]⟩
    · exact ⟨_, _, _, rfl, rfl, by simp [State.sweep]⟩

theorem Sound.finish (h : Sound cap s outcome) (hwho : s.sweep who = some stage) :
    ∃ n s', s.run cap (List.replicate n (endAction who)) = some s' ∧ s'.words.freed = true := by
  induction hrank : stage.rank s.words using Nat.strong_induction_on generalizing s stage outcome with
  | _ rank ih =>
    obtain ⟨s₁, next, events, hstep, hrelease, hsweep⟩ : ∃ s' next events, s.step cap (endAction who) = some s' ∧ _ :=
      State.step_sweep hwho
    obtain ⟨outcome₁, h₁⟩ := h.step hstep
    have hok : SweepOk cap s.words s.dropped stage := by
      cases h.ends.phase with
      | alive _ _ _ hnone | ended _ _ hnone => simp [hnone] at hwho
      | sweeping who' stage' _ _ hwho' hothers hok =>
        obtain rfl : who = who' := by
          by_contra hne
          simp [hothers who hne] at hwho
        obtain rfl : stage' = stage := by simpa [hwho'] using hwho
        exact hok
    rcases ReleasePc.step_rank hok hrelease with hfreed | ⟨stage₁, rfl, hne, hlt⟩
    · refine ⟨1, s₁, ?_, hfreed⟩
      simp [State.run, hstep]
    rw [bind_some, ReleasePc.sweep, if_neg hne] at hsweep
    rw [hrank] at hlt
    obtain ⟨n, s', hrun, hfreed⟩ := ih _ hlt h₁ hsweep rfl
    refine ⟨n + 1, s', ?_, hfreed⟩
    rw [replicate_succ, State.run, hstep]
    exact hrun

end

def State.position (s : State α) : ℕ :=
  match s.receiver with
  | .take k | .store k _ | .notify _ k _ => k
  | _ => s.words.recvs

def RecvPc.inHand : RecvPc α → Option (ℕ × α)
  | .store k value | .notify _ k value => some (k, value)
  | _ => none

def Words.Holds (cap : ℕ) (w : Words α) (k : ℕ) (value : α) : Prop :=
  w.slots (k % cap) = 2 * k + 1 ∧ w.data (k % cap) = value

structure Delivers (cap : ℕ) (s : State α) : Prop where
  noPanic : s.words.panicked = false
  numbers : s.numbers.Nodup
  order : (s.received.map Prod.fst).Pairwise (· < ·)
  received : ∀ k value, (k, value) ∈ s.received ↔ s.SentOk k value ∧ k < s.position
  kept : ∀ k value, s.SentOk k value → s.position ≤ k →
    s.receiver.inHand = some (k, value) ∨ s.words.Holds cap k value
  failed : ∀ k value cancelled timedOut, .sent (.err (some k) value cancelled timedOut) ∈ s.log →
    ∀ value', ¬ s.SentOk k value' ∧ (k, value') ∉ s.received ∧ (k, value') ∉ s.dropped
  dropsLast : s.dropped ≠ [] → s.words.ends = 0
  dropped : s.words.freed = true →
    (∀ k value, (k, value) ∈ s.received ++ s.dropped ↔ .sent (.ok k value) ∈ s.log) ∧
      ((s.received ++ s.dropped).map Prod.fst).Nodup
  freed : (∀ i, s.senders i = .unborn ∨ s.senders i = .gone) → s.receiver = .gone → s.words.freed = true
  finishes : s.words.ends = 0 → s.words.freed = false →
    ∃ who n s', s.run cap (List.replicate n (endAction who)) = some s' ∧ s'.words.freed = true

variable {s : State α} {outcome : ℕ → Outcome α}

theorem Refines.sentOk_iff (h : Refines cap s outcome) (k : ℕ) (v : α) : s.SentOk k v ↔ outcome k = .published v := by
  refine ⟨?_, h.sentOk k v⟩
  rintro (hin | ⟨i, stage, hi⟩)
  · exact h.answered _ hin
  · have := h.promised i
    rw [hi] at this
    exact this

theorem State.given_ring (s : State α) (outcome : ℕ → Outcome α) : (s.ring outcome).given = s.position := by
  unfold SlotRing.State.given State.position State.ring
  cases s.receiver <;> rfl

variable (h : Refines cap s outcome)
include h

theorem Refines.received_eq : s.received = (List.range s.position).flatMap fun k => (outcome k).entry k := by
  rw [← s.given_ring outcome]
  exact h.ring.delivered_eq

theorem Refines.mem_received (k : ℕ) (v : α) : (k, v) ∈ s.received ↔ s.SentOk k v ∧ k < s.position := by
  rw [h.received_eq, SlotRing.mem_entries, h.sentOk_iff, and_comm]

variable {k : ℕ} {v : α}

theorem Refines.kept (hk : s.SentOk k v) (hle : s.position ≤ k) :
    s.receiver.inHand = some (k, v) ∨ s.words.Holds cap k v := by
  rw [h.sentOk_iff] at hk
  by_cases hposition : (s.ring outcome).position ≤ k
  · exact .inr ⟨h.ring.slot_of_published hposition hk, (h.ring.stored k v hposition hk).2⟩
  · -- Only a receive that has freed its slot and not yet returned is behind the ring.
    left
    have htaker := h.ring.taker
    cases hpc : s.receiver with
    | notify stage k' v' =>
      rw [ring_taker hpc outcome] at htaker
      obtain ⟨hrecvs, hk'⟩ := htaker
      have hpos : (s.ring outcome).position = k' + 1 := by
        simpa [SlotRing.State.position, hpc] using hrecvs
      have hgiven : s.position = k' := by simp [State.position, hpc]
      obtain rfl : k = k' := by omega
      have hvalue : outcome k = .published v' := hk'
      rw [hk] at hvalue
      cases hvalue
      rfl
    | passSlot k' call =>
      rw [ring_taker hpc outcome] at htaker
      have hrecvs : s.words.recvs = k' + 1 := htaker.1
      simp only [SlotRing.State.position, State.ring, hpc, RecvPc.taker] at hposition
      simp only [State.position, hpc] at hle
      omega
    | _ =>
      simp only [SlotRing.State.position, State.ring, hpc, RecvPc.taker] at hposition
      simp only [State.position, hpc] at hle
      omega

omit h in
theorem mem_swept {w : Words α} {n : ℕ} : (k, v) ∈ swept cap w n ↔ w.recvs ≤ k ∧ k < n ∧ w.Holds cap k v := by
  simp only [swept, mem_filterMap, mem_range'_1, stored, Words.Holds]
  constructor
  · rintro ⟨j, hj, hin⟩
    split at hin
    next hslot =>
      cases hin
      exact ⟨hj.1, by omega, hslot, rfl⟩
    next => cases hin
  · rintro ⟨hle, hlt, hslot, rfl⟩
    exact ⟨k, ⟨hle, by omega⟩, by rw [if_pos hslot]⟩

omit h in
theorem swept_pairwise (cap : ℕ) (w : Words α) (n : ℕ) : ((swept cap w n).map Prod.fst).Pairwise (· < ·) := by
  rw [pairwise_map, swept, pairwise_filterMap]
  refine List.Pairwise.imp ?_ (pairwise_lt_range' 1)
  intro a b hab x hx y hy
  simp only [stored] at hx hy
  split at hx
  · split at hy
    · cases hx
      cases hy
      exact hab
    · cases hy
  · cases hx

theorem Refines.sentOk_of_holds (hready : s.receiver.taker = .ready)
    (hle : s.words.recvs ≤ k) (hk : s.words.Holds cap k v) : s.SentOk k v := by
  have hposition : (s.ring outcome).position = s.words.recvs := by
    simp [-RecvPc.taker, SlotRing.State.position, hready]
  obtain ⟨v', hv', hdata⟩ := h.ring.published_of_slot (hposition ▸ hle) hk.1
  obtain rfl : v = v' := hk.2.symm.trans hdata
  exact (h.sentOk_iff k v).mpr hv'

theorem Refines.swept_iff (hready : s.receiver.taker = .ready) (k : ℕ) (v : α) :
    (k, v) ∈ swept cap s.words s.words.sends ↔ s.SentOk k v ∧ s.words.recvs ≤ k := by
  have hposition : (s.ring outcome).position = s.words.recvs := by
    simp [-RecvPc.taker, SlotRing.State.position, hready]
  rw [mem_swept]
  constructor
  · rintro ⟨hle, -, hk⟩
    exact ⟨h.sentOk_of_holds hready hle hk, hle⟩
  rintro ⟨hk, hle⟩
  rw [h.sentOk_iff] at hk
  have hlt : k < s.words.sends := h.ring.lt_sends (by rw [show (s.ring outcome).outcome k = _ from hk]; simp)
  exact ⟨hle, hlt, h.ring.slot_of_published (hposition ▸ hle) hk, (h.ring.stored k v (hposition ▸ hle) hk).2⟩

omit h

theorem SweepOk.dropped_eq {w : Words α} {dropped : List (ℕ × α)} {stage : ReleasePc}
    (h : SweepOk cap w dropped stage) : ∃ n, dropped = swept cap w n := by
  cases stage with
  | ends => exact h.elim
  | readRecvs => exact ⟨0, by simpa [swept, SweepOk] using h⟩
  | readSends k => exact ⟨0, by simpa [swept] using h.1⟩
  | scan k stop => exact ⟨k, h.2.2.2⟩
  | drop k stop => exact ⟨k, h.2.2.2.1⟩
  | readSkips | forget => exact ⟨_, h⟩
  | free => exact ⟨_, h.1⟩

theorem Ends.dropped_eq (h : Ends cap s) : s.dropped = [] ∨ s.words.ends = 0 ∧ ∃ n, s.dropped = swept cap s.words n := by
  cases h.phase with
  | alive _ _ hdropped => exact .inl hdropped
  | sweeping who stage hends _ _ _ hok => exact .inr ⟨hends, hok.dropped_eq⟩
  | ended hends _ _ hdropped => exact .inr ⟨hends, _, hdropped⟩

theorem Sound.sentOk_of_dropped (h : Sound cap s outcome) (hk : (k, v) ∈ s.dropped) : s.SentOk k v := by
  rcases h.ends.dropped_eq with hnil | ⟨hends, n, hn⟩
  · rw [hnil] at hk
    cases hk
  · rw [hn, mem_swept] at hk
    exact h.refines.sentOk_of_holds (h.ends.receiver_ready hends) hk.1 hk.2.2

theorem Ends.sentOk_iff (h : Ends cap s) (hends : s.words.ends = 0) (k : ℕ) (v : α) :
    s.SentOk k v ↔ .sent (.ok k v) ∈ s.log := by
  refine ⟨?_, .inl⟩
  rintro (hin | ⟨i, stage, hi⟩)
  · exact hin
  · have hzero := h.weight_eq_zero hends (some i)
    rw [State.weight, hi] at hzero
    cases hzero

theorem Ends.position_eq (h : Ends cap s) (hends : s.words.ends = 0) : s.position = s.words.recvs := by
  have hzero := h.weight_eq_zero hends none
  unfold State.position
  cases hpc : s.receiver <;> simp_all [State.weight]

theorem Sound.all_dropped (h : Sound cap s outcome) (hfreed : s.words.freed = true) :
    (∀ k value, (k, value) ∈ s.received ++ s.dropped ↔ .sent (.ok k value) ∈ s.log) ∧
      ((s.received ++ s.dropped).map Prod.fst).Nodup := by
  obtain ⟨href, hends, -⟩ := h
  cases hends.phase with
  | alive _ hnot | sweeping _ _ _ hnot =>
    rw [hfreed] at hnot
    cases hnot
  | ended hzero _ _ hdropped =>
    have hready := hends.receiver_ready hzero
    have hposition := hends.position_eq hzero
    have hmem : ∀ k v, (k, v) ∈ s.dropped ↔ s.SentOk k v ∧ s.words.recvs ≤ k := by
      intro k v
      rw [hdropped, href.swept_iff hready]
    constructor
    · intro k v
      rw [mem_append, href.mem_received, hmem, hposition, ← hends.sentOk_iff hzero]
      constructor
      · rintro (⟨hk, -⟩ | ⟨hk, -⟩) <;> exact hk
      intro hk
      rcases lt_or_ge k s.words.recvs with hlt | hge
      · exact .inl ⟨hk, hlt⟩
      · exact .inr ⟨hk, hge⟩
    · rw [map_append, nodup_append]
      refine ⟨?_, ?_, ?_⟩
      · rw [href.received_eq]
        exact (SlotRing.entries_pairwise outcome _).imp ne_of_lt
      · rw [hdropped]
        exact (swept_pairwise cap s.words _).imp ne_of_lt
      · intro k hk j hj
        obtain ⟨⟨k, v⟩, hin, rfl⟩ := List.mem_map.mp hk
        obtain ⟨⟨j, v'⟩, hin', rfl⟩ := List.mem_map.mp hj
        have hlt := ((href.mem_received k v).mp hin).2
        have hge := ((hmem j v').mp hin').2
        omega

theorem Sound.delivers (h : Sound cap s outcome) : Delivers cap s where
  noPanic := h.refines.panicked
  numbers := h.numbers.nodup
  order := h.refines.received_eq ▸ SlotRing.entries_pairwise outcome _
  received := h.refines.mem_received
  kept _ _ := h.refines.kept
  failed := by
    intro k v cancelled timedOut hin v'
    have hno : ¬ s.SentOk k v' := by
      rw [h.refines.sentOk_iff]
      rcases h.refines.answered _ hin with hk | hk <;> simp [hk]
    refine ⟨hno, fun hk => ?_, fun hk => hno (h.sentOk_of_dropped hk)⟩
    exact hno ((h.refines.mem_received k v').mp hk).1
  dropsLast := by
    intro hne
    rcases h.ends.dropped_eq with hnil | ⟨hends, -⟩
    · exact absurd hnil hne
    · exact hends
  dropped := h.all_dropped
  freed := by
    intro hsenders hreceiver
    have hweight : ∀ who, s.weight who = 0 := by
      intro who
      rcases who with _ | i
      · simp [State.weight, hreceiver]
      · rcases hsenders i with hi | hi <;> simp [State.weight, hi]
    have hends : s.words.ends = 0 := by
      rw [h.ends.ends]
      simp [total, hweight]
    cases h.ends.phase with
    | alive hpos => omega
    | ended _ hfreed => exact hfreed
    | sweeping who stage _ _ hwho =>
      rcases who with _ | i
      · simp [State.sweep, hreceiver, RecvPc.sweep] at hwho
      · rcases hsenders i with hi | hi <;> simp [State.sweep, hi] at hwho
  finishes := by
    intro hends hfreed
    cases h.ends.phase with
    | alive hpos => omega
    | ended _ hfreed' =>
      rw [hfreed] at hfreed'
      cases hfreed'
    | sweeping who stage _ _ hwho => exact ⟨who, h.finish hwho⟩

theorem channel_delivers (hcap : 0 < cap) (buffer : ℕ → α) {actions : List (Action α)}
    (hrun : (State.channel buffer).run cap actions = some s) : Delivers cap s := by
  obtain ⟨outcome, h⟩ := (Sound.channel hcap buffer).run hrun
  exact h.delivers

def timedOutRun : List (Action ℕ) :=
  [(.callSender 0 (.send 7) : Action ℕ)] ++ @List.replicate (Action ℕ) 9 (.sender 0 ⟨false, false⟩) ++
  [(.callSender 0 (.sendFor 8) : Action ℕ)] ++ @List.replicate (Action ℕ) 10 (.sender 0 ⟨false, true⟩) ++
  [(.callReceiver .recv : Action ℕ)] ++ @List.replicate (Action ℕ) 10 (.receiver ⟨false, false⟩) ++
  [(.callReceiver .tryRecv : Action ℕ)] ++ @List.replicate (Action ℕ) 14 (.receiver ⟨false, false⟩) ++
  [(.callSender 0 (.send 9) : Action ℕ)] ++ @List.replicate (Action ℕ) 9 (.sender 0 ⟨false, false⟩) ++
  [(.callSender 0 .drop : Action ℕ)] ++ @List.replicate (Action ℕ) 4 (.sender 0 ⟨false, false⟩) ++
  [(.callReceiver .drop : Action ℕ)] ++ @List.replicate (Action ℕ) 11 (.receiver ⟨false, false⟩)

theorem timedOutRun_ends :
    ((State.channel fun _ => 0).run 1 timedOutRun).map (fun s => (s.received, s.dropped, s.words.freed)) =
      some ([(0, 7)], [(2, 9)], true) := by
  decide

theorem channel_delivers_timedOut :
    ∃ s, (State.channel fun _ => 0).run 1 timedOutRun = some s ∧ Delivers 1 s ∧
      s.received = [(0, 7)] ∧ s.dropped = [(2, 9)] ∧ s.words.freed = true := by
  obtain ⟨s, hrun, hs⟩ := Option.map_eq_some_iff.mp timedOutRun_ends
  simp only [Prod.mk.injEq] at hs
  exact ⟨s, hrun, channel_delivers Nat.one_pos _ hrun, hs⟩

/-- The numbers that were sent and that the receiver has not counted. -/
def State.waiting (s : State α) : Set ℕ := {k | s.words.recvs ≤ k ∧ ∃ value, s.SentOk k value}

theorem channel_bounded (hcap : 0 < cap) (buffer : ℕ → α) {actions : List (Action α)}
    (hrun : (State.channel buffer).run cap actions = some s) : s.waiting.encard ≤ cap := by
  obtain ⟨outcome, h, -⟩ := (Sound.channel hcap buffer).run hrun
  have hposition : (s.ring outcome).position ≤ s.words.recvs := h.ring.position_le
  have hwindow : s.waiting ⊆ Finset.Ico s.words.recvs (s.words.recvs + cap) := by
    rintro k ⟨hle, value, hsent⟩
    have hstored := h.ring.stored k value (hposition.trans hle) ((h.sentOk_iff k value).mp hsent)
    rw [Finset.mem_coe, Finset.mem_Ico]
    omega
  calc s.waiting.encard ≤ _ := Set.encard_le_encard hwindow
    _ = cap := by rw [Set.encard_coe_eq_coe_finsetCard, Nat.card_Ico, Nat.add_sub_cancel_left]

theorem channel_bounded_timedOut :
    ∃ s, (State.channel fun _ => 0).run 1 timedOutRun = some s ∧ s.waiting.encard ≤ (1 : ℕ) := by
  obtain ⟨s, hrun, -⟩ := Option.map_eq_some_iff.mp timedOutRun_ends
  exact ⟨s, hrun, channel_bounded Nat.one_pos _ hrun⟩

end Vx.Channel
