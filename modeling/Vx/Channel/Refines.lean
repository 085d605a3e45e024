import Vx.Channel.Model
import Vx.Lib.SlotRing

namespace Vx.Channel

open List Function
open Function (update)
open Lib.SlotRing (Outcome Holder Taker)
open Lib

variable {α : Type} {cap : ℕ}

@[simp]
def SendPc.holder : SendPc α → Holder α
  | .readWake k call | .readReceiver k _ call | .readSlot k _ call | .check k _ call | .skip k call _
  | .sleep k _ call | .asleep k _ call | .woken k call => .waiting k call.value
  | .write k call => .clear k call.value
  | .publish k call => .filled k call.value
  | _ => .out

@[simp]
def RecvPc.taker : RecvPc α → Taker α
  | .advance k => .full k
  | .take k => .taking k
  | .store k value => .freeing k value
  | .notify _ k value => .holding k value
  | .countSkip k _ | .passNumber k _ => .passing k
  | .passSlot k _ => .passed k
  | _ => .ready

@[simp]
def Event.delivery : Event α → Option (ℕ × α)
  | .received k value => some (k, value)
  | _ => none

def Event.drop : Event α → Option (ℕ × α)
  | .dropped k value => some (k, value)
  | _ => none

def State.received (s : State α) : List (ℕ × α) := s.log.filterMap Event.delivery

def State.dropped (s : State α) : List (ℕ × α) := s.log.filterMap Event.drop

@[simp]
def State.ring (s : State α) (outcome : ℕ → Outcome α) : SlotRing.State α where
  sends := s.words.sends
  recvs := s.words.recvs
  slots := s.words.slots
  data := s.words.data
  skips := s.words.skipSet
  holders := SendPc.holder ∘ s.senders
  taker := s.receiver.taker
  outcome := outcome
  delivered := s.received

@[simp]
def RecvPc.cursor : RecvPc α → Option ℕ
  | .readWake k _ | .checkCancel k _ _ | .readSenders k _ _ | .readSlot k _ _ _ | .readSkips k _ _ _
  | .takeSkip k _ _ _ | .settle k _ _ _ | .sleep k _ _ | .asleep k _ _ | .woken k _ => some k
  | .notifySkip _ k _ => some (k + 1)
  | _ => none

@[simp]
def SendPc.Promised (outcome : ℕ → Outcome α) : SendPc α → Prop
  | .notify _ (.ok k value) => outcome k = .published value
  | .notify _ (.err (some k) _ _ _) | .countSkip k _ _ => outcome k = .skipped
  | _ => True

@[simp]
def Event.Answered (outcome : ℕ → Outcome α) : Event α → Prop
  | .sent (.ok k value) => outcome k = .published value
  | .sent (.err (some k) _ _ _) => outcome k = .skipped ∨ outcome k = .abandoned
  | _ => True

def State.SentOk (s : State α) (k : ℕ) (value : α) : Prop :=
  .sent (.ok k value) ∈ s.log ∨ ∃ i stage, s.senders i = .notify stage (.ok k value)

structure Refines (cap : ℕ) (s : State α) (outcome : ℕ → Outcome α) : Prop where
  ring : SlotRing.Inv cap (s.ring outcome)
  cursor : ∀ k, s.receiver.cursor = some k → s.words.recvs = k
  promised : ∀ i, (s.senders i).Promised outcome
  answered : ∀ event ∈ s.log, event.Answered outcome
  sentOk : ∀ k value, outcome k = .published value → s.SentOk k value
  panicked : s.words.panicked = false

section

def Keeps (outcome outcome' : ℕ → Outcome α) : Prop := ∀ k, outcome k ≠ .pending → outcome' k = outcome k

variable {outcome outcome' : ℕ → Outcome α}

theorem keeps_update {k : ℕ} (hk : outcome k = .pending) (o : Outcome α) : Keeps outcome (update outcome k o) := by
  intro j hj
  rw [update_of_ne]
  rintro rfl
  exact hj hk

theorem SendPc.Promised.keeps {pc : SendPc α} (h : pc.Promised outcome) (hk : Keeps outcome outcome') :
    pc.Promised outcome' := by
  unfold SendPc.Promised at h ⊢
  split at h
  · exact (hk _ (by simp [h])).trans h
  · exact (hk _ (by simp [h])).trans h
  · exact (hk _ (by simp [h])).trans h
  · trivial

theorem Event.Answered.keeps {event : Event α} (h : event.Answered outcome) (hk : Keeps outcome outcome') :
    event.Answered outcome' := by
  unfold Event.Answered at h ⊢
  split at h
  · exact (hk _ (by simp [h])).trans h
  · rcases h with h | h
    · exact .inl ((hk _ (by simp [h])).trans h)
    · exact .inr ((hk _ (by simp [h])).trans h)
  · trivial

variable {s : State α} {i : ℕ} {pc pc' : SendPc α} {w' : Words α} {events : List (Event α)}

@[simp]
def State.afterSender (s : State α) (i : ℕ) (w' : Words α) (pc' : SendPc α) (events : List (Event α)) : State α :=
  { s with words := w', senders := update s.senders i pc', log := s.log ++ events }

theorem ring_afterSender (outcome : ℕ → Outcome α) : (s.afterSender i w' pc' events).ring outcome =
      { sends := w'.sends, recvs := w'.recvs, slots := w'.slots, data := w'.data, skips := w'.skipSet,
        holders := update (SendPc.holder ∘ s.senders) i pc'.holder, taker := s.receiver.taker, outcome := outcome,
        delivered := s.received ++ events.filterMap Event.delivery } := by
  simp [State.received, comp_update]

def Announces (pc : SendPc α) (pc' : SendPc α) (events : List (Event α)) : Prop :=
  ∀ stage k v, pc = .notify stage (.ok k v) → .sent (.ok k v) ∈ events ∨ ∃ stage', pc' = .notify stage' (.ok k v)

variable {k : ℕ}

theorem sentOk_afterSender (hpc : s.senders i = pc) (ha : Announces pc pc' events) {v : α}
    (h : s.SentOk k v) : (s.afterSender i w' pc' events).SentOk k v := by
  rcases h with h | ⟨j, stage, hj⟩
  · exact .inl (mem_append_left _ h)
  by_cases hji : j = i
  · rcases ha stage k v (by rw [← hpc, ← hji, hj]) with hin | ⟨stage', hstage⟩
    · exact .inl (mem_append_right _ hin)
    · exact .inr ⟨i, stage', by simp [hstage]⟩
  · exact .inr ⟨j, stage, by simp [hji, hj]⟩

theorem Refines.afterSender (h : Refines cap s outcome) (hpc : s.senders i = pc) (hkeeps : Keeps outcome outcome')
    (hring : SlotRing.Inv cap ((s.afterSender i w' pc' events).ring outcome'))
    (hrecvs : w'.recvs = s.words.recvs) (hpanicked : w'.panicked = s.words.panicked)
    (hpromised : pc'.Promised outcome') (hanswered : ∀ event ∈ events, event.Answered outcome')
    (hannounces : Announces pc pc' events)
    (hnew : ∀ k v, outcome' k = .published v → outcome k = .published v ∨ ∃ stage, pc' = .notify stage (.ok k v)) :
    Refines cap (s.afterSender i w' pc' events) outcome' where
  ring := hring
  cursor k hk := hrecvs.trans (h.cursor k hk)
  promised j := by
    by_cases hj : j = i
    · simpa [hj] using hpromised
    · simpa [hj] using (h.promised j).keeps hkeeps
  answered event hin := by
    rcases List.mem_append.mp hin with hin | hin
    · exact (h.answered event hin).keeps hkeeps
    · exact hanswered event hin
  sentOk k v hk := by
    rcases hnew k v hk with hk | ⟨stage, hstage⟩
    · exact sentOk_afterSender hpc hannounces (h.sentOk k v hk)
    · exact .inr ⟨i, stage, by simp [hstage]⟩
  panicked := hpanicked.trans h.panicked

structure SameRing (w w' : Words α) : Prop where
  sends : w'.sends = w.sends
  recvs : w'.recvs = w.recvs
  slots : w'.slots = w.slots
  data : w'.data = w.data
  skipSet : w'.skipSet = w.skipSet
  panicked : w'.panicked = w.panicked

theorem SameRing.rfl {w : Words α} : SameRing w w := ⟨Eq.refl _, Eq.refl _, Eq.refl _, Eq.refl _, Eq.refl _, Eq.refl _⟩

theorem Refines.quiet (h : Refines cap s outcome) (hpc : s.senders i = pc) (hw : SameRing s.words w')
    (hholder : pc'.holder = pc.holder) (hdelivery : events.filterMap Event.delivery = [])
    (hpromised : pc'.Promised outcome) (hanswered : ∀ event ∈ events, event.Answered outcome)
    (hannounces : Announces pc pc' events) : Refines cap (s.afterSender i w' pc' events) outcome := by
  have hring : (s.afterSender i w' pc' events).ring outcome = s.ring outcome := by
    have hholders : update (SendPc.holder ∘ s.senders) i pc'.holder = SendPc.holder ∘ s.senders := by
      rw [update_eq_self_iff, hholder, ← hpc]
      rfl
    rw [ring_afterSender, hholders, hw.sends, hw.recvs, hw.slots, hw.data, hw.skipSet, hdelivery, append_nil]
    rfl
  exact h.afterSender hpc (fun _ _ => Eq.refl _) (hring ▸ h.ring) hw.recvs hw.panicked hpromised hanswered hannounces
    fun _ _ hk => .inl hk

theorem NotifyPc.step_same (stage : NotifyPc) (w : Words α) : SameRing w (stage.step w).1 := by
  cases stage <;> exact ⟨Eq.refl _, Eq.refl _, Eq.refl _, Eq.refl _, Eq.refl _, Eq.refl _⟩

theorem ring_holders (hpc : s.senders i = pc) (outcome : ℕ → Outcome α) : (s.ring outcome).holders i = pc.holder := by
  rw [← hpc]
  rfl

variable {call : SendCall α} (h : Refines cap s outcome)
include h

theorem Refines.move (hpc : s.senders i = pc)
    (hring : SlotRing.Inv cap ((s.afterSender i w' pc' []).ring outcome)) (hrecvs : w'.recvs = s.words.recvs)
    (hpanicked : w'.panicked = s.words.panicked) (hpromised : pc'.Promised outcome) (hannounces : Announces pc pc' []) :
    Refines cap (s.afterSender i w' pc' []) outcome :=
  h.afterSender hpc (fun _ _ => rfl) hring hrecvs hpanicked hpromised (by simp) hannounces fun _ _ hk => .inl hk

omit h in
theorem published_of_update {o : Outcome α} (ho : ∀ v, o ≠ .published v) {j : ℕ} {v : α}
    (hj : update outcome k o j = .published v) : outcome j = .published v := by
  by_cases hjk : j = k
  · exact absurd (by simpa [hjk] using hj) (ho v)
  · simpa [hjk] using hj

theorem Refines.number (hpc : s.senders i = .number call) :
    Refines cap (s.afterSender i { s.words with sends := s.words.sends + 1 } (.readWake s.words.sends call) [])
      outcome := by
  refine h.move hpc ?_ rfl rfl trivial nofun
  have hstep := h.ring.step (.take i call.value (ring_holders hpc outcome))
  rw [ring_afterSender]
  simpa using hstep

theorem Refines.abandon {seen : ℕ} (hpc : s.senders i = .readReceiver k seen call) : ∃ outcome', Refines cap
      (s.afterSender i s.words .idle [.sent (.err (some k) call.value false false)]) outcome' := by
  have hholder := ring_holders hpc outcome
  have hpending : outcome k = .pending := ((hholder ▸ h.ring.holders i :) : _ ∧ _).2
  refine ⟨update outcome k .abandoned, ?_⟩
  refine h.afterSender hpc (keeps_update hpending _) ?_ rfl rfl trivial ?_ nofun
    fun _ _ hj => .inl (published_of_update nofun hj)
  · have hstep := h.ring.step (.abandon i k call.value hholder)
    rw [ring_afterSender]
    simpa [filterMap_cons] using hstep
  · simp

theorem Refines.enter {seen : ℕ} (hpc : s.senders i = .readSlot k seen call) (hs : s.words.slots (k % cap) = 2 * k) :
    Refines cap (s.afterSender i s.words (.write k call) []) outcome := by
  refine h.move hpc ?_ rfl rfl trivial nofun
  have hstep := h.ring.step (.enter i k call.value (ring_holders hpc outcome) hs)
  rw [ring_afterSender]
  simpa using hstep

theorem Refines.write (hpc : s.senders i = .write k call) :
    Refines cap (s.afterSender i { s.words with data := update s.words.data (k % cap) call.value }
      (.publish k call) []) outcome := by
  refine h.move hpc ?_ rfl rfl trivial nofun
  have hstep := h.ring.step (.fill i k call.value (ring_holders hpc outcome))
  rw [ring_afterSender]
  simpa using hstep

theorem Refines.publish (hpc : s.senders i = .publish k call) :
    ∃ outcome', Refines cap (s.afterSender i { s.words with slots := update s.words.slots (k % cap) (2 * k + 1) }
      (.notify .bump (.ok k call.value)) []) outcome' := by
  have hholder := ring_holders hpc outcome
  have hpending : outcome k = .pending := ((hholder ▸ h.ring.holders i :) : _ ∧ _ ∧ _).2.1
  refine ⟨update outcome k (.published call.value), ?_⟩
  refine h.afterSender hpc (keeps_update hpending _) ?_ rfl rfl ?_ (by simp) nofun ?_
  · have hstep := h.ring.step (.publish i k call.value hholder)
    rw [ring_afterSender]
    simpa using hstep
  · simp
  · intro j v hj
    by_cases hjk : j = k
    · subst hjk
      simp only [update_self, Outcome.published.injEq] at hj
      exact .inr ⟨.bump, by rw [hj]⟩
    · exact .inl (by simpa [hjk] using hj)

theorem Refines.skip {wasCancelled : Bool} (hpc : s.senders i = .skip k call wasCancelled) : k ∉ s.words.skipSet ∧
      ∃ outcome', Refines cap (s.afterSender i { s.words with skipSet := insert k s.words.skipSet }
        (.countSkip k call wasCancelled) []) outcome' := by
  have hholder := ring_holders hpc outcome
  have hpending : outcome k = .pending := ((hholder ▸ h.ring.holders i :) : _ ∧ _).2
  refine ⟨fun hin => ?_, update outcome k .skipped, ?_⟩
  · have hskipped := (h.ring.skips k hin).2
    rw [show (s.ring outcome).outcome k = outcome k from rfl, hpending] at hskipped
    cases hskipped
  · refine h.afterSender hpc (keeps_update hpending _) ?_ rfl rfl ?_ (by simp) nofun
      fun _ _ hj => .inl (published_of_update nofun hj)
    · have hstep := h.ring.step (.skip i k call.value hholder)
      rw [ring_afterSender]
      simpa using hstep
    · simp

omit h

theorem ReleasePc.step_ring (cap : ℕ) (outcome : ℕ → Outcome α) (stage : ReleasePc) (w : Words α)
    (h : stage ≠ .forget) : SameRing w (stage.step cap w).1 ∧ (stage.step cap w).2.2.filterMap Event.delivery = [] ∧
      ∀ event ∈ (stage.step cap w).2.2, event.Answered outcome := by
  cases stage with
  | scan k stop =>
    simp only [ReleasePc.step]
    split_ifs <;> simp [SameRing.rfl]
  | drop k stop => simp [ReleasePc.step, SameRing.rfl, filterMap_cons]
  | forget => exact absurd rfl h
  | _ => exact ⟨⟨rfl, rfl, rfl, rfl, rfl, rfl⟩, rfl, by simp [ReleasePc.step]⟩

theorem ring_forget {r : SlotRing.State α} (h : SlotRing.Inv cap r) (ht : r.taker = .ready) :
    SlotRing.Inv cap { r with skips := ∅ } :=
  { h with
    taker := by simp [ht, SlotRing.TakerOk]
    skips := by simp }

theorem Refines.stepSender (h : Refines cap s outcome) {input : Input} {w' : Words α}
    (hforget : s.senders i = .release .forget → s.receiver.taker = .ready)
    (hstep : (s.senders i).step cap input s.words = some (w', pc', events)) :
    ∃ outcome', Refines cap (s.afterSender i w' pc' events) outcome' := by
  have hquiet : ∀ {pc : SendPc α} {w' : Words α}, s.senders i = pc → SameRing s.words w' → pc'.holder = pc.holder →
      events = [] → pc'.Promised outcome → (∀ stage k v, pc = .notify stage (.ok k v) →
        ∃ stage', pc' = .notify stage' (.ok k v)) → ∃ outcome', Refines cap (s.afterSender i w' pc' events) outcome' :=
    fun hpc hw hholder hevents hpromised ha => ⟨outcome, h.quiet hpc hw hholder (by simp [hevents]) hpromised
      (by simp [hevents]) fun stage k v hk => .inr (ha stage k v hk)⟩
  generalize hpc : s.senders i = pc at hstep
  cases pc with
  | unborn | idle | gone | cloneEnds => simp [SendPc.step] at hstep
  | enter call =>
    simp only [SendPc.step] at hstep
    split at hstep
    · cases hstep
      exact ⟨outcome, h.quiet hpc .rfl rfl (by simp [filterMap_cons]) trivial (by simp) nofun⟩
    · cases hstep
      exact hquiet hpc .rfl rfl rfl trivial nofun
  | number call =>
    cases hstep
    exact ⟨outcome, h.number hpc⟩
  | readReceiver k seen call =>
    simp only [SendPc.step] at hstep
    split at hstep
    · cases hstep
      exact hquiet hpc .rfl rfl rfl trivial nofun
    · cases hstep
      exact h.abandon hpc
  | readSlot k seen call =>
    simp only [SendPc.step] at hstep
    split at hstep
    next hs =>
      cases hstep
      exact ⟨outcome, h.enter hpc hs⟩
    next =>
      cases hstep
      exact hquiet hpc .rfl rfl rfl trivial nofun
  | write k call =>
    cases hstep
    exact ⟨outcome, h.write hpc⟩
  | publish k call =>
    cases hstep
    exact h.publish hpc
  | check k seen call =>
    simp only [SendPc.step] at hstep
    split at hstep <;> cases hstep <;> exact hquiet hpc .rfl rfl rfl trivial nofun
  | skip k call wasCancelled =>
    obtain ⟨hnew, hskip⟩ := h.skip hpc
    simp only [SendPc.step, if_neg hnew] at hstep
    cases hstep
    exact hskip
  | countSkip k call wasCancelled =>
    have hpromised := h.promised i
    rw [hpc] at hpromised
    cases hstep
    exact hquiet hpc ⟨rfl, rfl, rfl, rfl, rfl, rfl⟩ rfl rfl hpromised nofun
  | readWake k call | asleep k seen call =>
    cases hstep
    exact hquiet hpc .rfl rfl rfl trivial nofun
  | sleep k seen call | woken k call | clone =>
    cases hstep
    exact hquiet hpc ⟨rfl, rfl, rfl, rfl, rfl, rfl⟩ rfl rfl trivial nofun
  | dropSender =>
    cases hstep
    refine hquiet hpc ⟨rfl, rfl, rfl, rfl, rfl, rfl⟩ ?_ rfl ?_ nofun
    · split <;> rfl
    · split <;> trivial
  | notify stage result =>
    have hpromised := h.promised i
    rw [hpc] at hpromised
    have hsame := stage.step_same s.words
    simp only [SendPc.step] at hstep
    split at hstep
    next w stage' heq =>
      rw [heq] at hsame
      cases hstep
      refine hquiet hpc hsame rfl rfl ?_ ?_
      · cases result with
        | ok k v => exact hpromised
        | err k v c t => cases k <;> exact hpromised
      · intro stage₀ k v hk
        cases hk
        exact ⟨stage', rfl⟩
    next w heq =>
      rw [heq] at hsame
      cases hstep
      refine ⟨outcome, h.quiet hpc hsame rfl (by simp [filterMap_cons]) trivial ?_ ?_⟩
      · intro event hin
        rw [List.mem_singleton.mp hin]
        cases result with
        | ok k v => exact hpromised
        | err k v c t =>
          cases k with
          | none => trivial
          | some k => exact .inl hpromised
      · intro stage₀ k v hk
        cases hk
        exact .inl (by simp)
  | notifyDrop stage =>
    have hsame := stage.step_same s.words
    simp only [SendPc.step] at hstep
    split at hstep
    next w stage' heq =>
      rw [heq] at hsame
      cases hstep
      exact hquiet hpc hsame rfl rfl trivial nofun
    next w heq =>
      rw [heq] at hsame
      cases hstep
      exact hquiet hpc hsame rfl rfl trivial nofun
  | release stage =>
    by_cases hstage : stage = .forget
    · subst hstage
      cases hstep
      refine ⟨outcome, h.move hpc ?_ rfl rfl trivial nofun⟩
      have hring := ring_forget h.ring (hforget hpc)
      have hholders : update (SendPc.holder ∘ s.senders) i .out = SendPc.holder ∘ s.senders := by
        simp [hpc]
      rw [ring_afterSender]
      simpa [hholders] using hring
    · obtain ⟨hsame, hdelivery, hanswered⟩ := stage.step_ring cap outcome s.words hstage
      simp only [SendPc.step] at hstep
      split at hstep
      next w stage' events' heq =>
        rw [heq] at hsame hdelivery hanswered
        cases hstep
        exact ⟨outcome, h.quiet hpc hsame rfl hdelivery trivial hanswered nofun⟩
      next w events' heq =>
        rw [heq] at hsame hdelivery hanswered
        cases hstep
        exact ⟨outcome, h.quiet hpc hsame rfl hdelivery trivial hanswered nofun⟩

end

variable {s : State α} {outcome : ℕ → Outcome α} {pc pc' : RecvPc α} {w' : Words α} {events : List (Event α)}

@[simp]
def State.afterReceiver (s : State α) (w' : Words α) (pc' : RecvPc α) (events : List (Event α)) : State α :=
  { s with words := w', receiver := pc', log := s.log ++ events }

theorem ring_afterReceiver (outcome : ℕ → Outcome α) : (s.afterReceiver w' pc' events).ring outcome =
      { sends := w'.sends, recvs := w'.recvs, slots := w'.slots, data := w'.data, skips := w'.skipSet,
        holders := SendPc.holder ∘ s.senders, taker := pc'.taker, outcome := outcome,
        delivered := s.received ++ events.filterMap Event.delivery } := by
  simp [State.received]

theorem Refines.afterReceiver (h : Refines cap s outcome)
    (hring : SlotRing.Inv cap ((s.afterReceiver w' pc' events).ring outcome))
    (hcursor : ∀ k, pc'.cursor = some k → w'.recvs = k) (hpanicked : w'.panicked = s.words.panicked)
    (hanswered : ∀ event ∈ events, event.Answered outcome) : Refines cap (s.afterReceiver w' pc' events) outcome where
  ring := hring
  cursor := hcursor
  promised := h.promised
  answered event hin := by
    rcases List.mem_append.mp hin with hin | hin
    · exact h.answered event hin
    · exact hanswered event hin
  sentOk k v hk := by
    rcases h.sentOk k v hk with hin | hi
    · exact .inl (mem_append_left _ hin)
    · exact .inr hi
  panicked := hpanicked.trans h.panicked

theorem Refines.quietReceiver (h : Refines cap s outcome) (hpc : s.receiver = pc) (hw : SameRing s.words w')
    (htaker : pc'.taker = pc.taker) (hdelivery : events.filterMap Event.delivery = [])
    (hcursor : ∀ k, pc'.cursor = some k → s.words.recvs = k) (hanswered : ∀ event ∈ events, event.Answered outcome) :
    Refines cap (s.afterReceiver w' pc' events) outcome := by
  have hring : (s.afterReceiver w' pc' events).ring outcome = s.ring outcome := by
    rw [ring_afterReceiver, htaker, ← hpc, hw.sends, hw.recvs, hw.slots, hw.data, hw.skipSet, hdelivery, append_nil]
    rfl
  exact h.afterReceiver (hring ▸ h.ring) (fun k hk => hw.recvs.trans (hcursor k hk)) hw.panicked hanswered

theorem ring_taker (hpc : s.receiver = pc) (outcome : ℕ → Outcome α) : (s.ring outcome).taker = pc.taker := by
  rw [← hpc]
  rfl

theorem RecvCall.loop_cursor (call : RecvCall) (n : ℕ) :
    (call.loop n : RecvPc α).taker = .ready ∧ (call.loop n : RecvPc α).cursor = some n := by
  cases call <;> exact ⟨rfl, rfl⟩

theorem RecvCall.settle_cursor (call : RecvCall) (input : Input) (k seen : ℕ) (closed : Bool) :
    (call.settle input k seen closed : RecvPc α × List (Event α)).1.taker = .ready ∧
      (∀ j, (call.settle input k seen closed : RecvPc α × List (Event α)).1.cursor = some j → j = k) ∧
      ∀ event ∈ (call.settle input k seen closed : RecvPc α × List (Event α)).2, ∃ why, event = .noValue why := by
  cases call with
  | tryRecv => simp [RecvCall.settle]
  | recv timed =>
    simp only [RecvCall.settle]
    split_ifs <;> simp

variable {k : ℕ} {call : RecvCall} (h : Refines cap s outcome)
include h

theorem Refines.find {seen : ℕ} {closed : Bool}
    (hpc : s.receiver = .readSlot k seen call closed) (hs : s.words.slots (k % cap) = 2 * k + 1) :
    Refines cap (s.afterReceiver s.words (.advance k) []) outcome := by
  have hk : s.words.recvs = k := h.cursor k (by rw [hpc]; rfl)
  refine h.afterReceiver ?_ (by simp) rfl (by simp)
  have hstep := h.ring.step (.find (ring_taker hpc outcome) (by simpa [hk] using hs))
  rw [ring_afterReceiver]
  simpa [hk] using hstep

theorem Refines.advance (hpc : s.receiver = .advance k) :
    Refines cap (s.afterReceiver { s.words with recvs := k + 1 } (.take k) []) outcome := by
  refine h.afterReceiver ?_ (by simp) rfl (by simp)
  have hstep := h.ring.step (.advance k (ring_taker hpc outcome))
  rw [ring_afterReceiver]
  simpa using hstep

theorem Refines.take (hpc : s.receiver = .take k) :
    Refines cap (s.afterReceiver s.words (.store k (s.words.data (k % cap))) []) outcome := by
  refine h.afterReceiver ?_ (by simp) rfl (by simp)
  have hstep := h.ring.step (.read k (ring_taker hpc outcome))
  rw [ring_afterReceiver]
  simpa using hstep

theorem Refines.store {v : α} (hpc : s.receiver = .store k v) :
    Refines cap (s.afterReceiver { s.words with slots := update s.words.slots (k % cap) (2 * (k + cap)) }
      (.notify .bump k v) []) outcome := by
  refine h.afterReceiver ?_ (by simp) rfl (by simp)
  have hstep := h.ring.step (.free k v (ring_taker hpc outcome))
  rw [ring_afterReceiver]
  simpa using hstep

theorem Refines.deliver {stage : NotifyPc} {v : α} (hpc : s.receiver = .notify stage k v) (hw : SameRing s.words w') :
    Refines cap (s.afterReceiver w' .idle [.received k v]) outcome := by
  refine h.afterReceiver ?_ (by simp) hw.panicked (by simp)
  have hstep := h.ring.step (.deliver k v (ring_taker hpc outcome))
  rw [ring_afterReceiver, hw.sends, hw.recvs, hw.slots, hw.data, hw.skipSet]
  simpa [filterMap_cons] using hstep

theorem Refines.takeSkip {seen : ℕ} {closed : Bool}
    (hpc : s.receiver = .takeSkip k seen call closed) (hin : k ∈ s.words.skipSet) :
    Refines cap (s.afterReceiver { s.words with skipSet := s.words.skipSet.erase k } (.countSkip k call) [])
      outcome := by
  have hk : s.words.recvs = k := h.cursor k (by rw [hpc]; rfl)
  refine h.afterReceiver ?_ (by simp) rfl (by simp)
  have hstep := h.ring.step (.findSkip (ring_taker hpc outcome) (by simpa [hk] using hin))
  rw [ring_afterReceiver]
  simpa [hk] using hstep

theorem Refines.passNumber (hpc : s.receiver = .passNumber k call) :
    Refines cap (s.afterReceiver { s.words with recvs := k + 1 } (.passSlot k call) []) outcome := by
  refine h.afterReceiver ?_ (by simp) rfl (by simp)
  have hstep := h.ring.step (.advanceSkip k (ring_taker hpc outcome))
  rw [ring_afterReceiver]
  simpa using hstep

theorem Refines.passSlot (hpc : s.receiver = .passSlot k call) :
    Refines cap (s.afterReceiver { s.words with slots := update s.words.slots (k % cap) (2 * (k + cap)) }
      (.notifySkip .bump k call) []) outcome := by
  have hrecvs : s.words.recvs = k + 1 := by
    have htaker := h.ring.taker
    rw [ring_taker hpc outcome] at htaker
    exact htaker.1
  refine h.afterReceiver ?_ (by simp [hrecvs]) rfl (by simp)
  have hstep := h.ring.step (.freeSkip k (ring_taker hpc outcome))
  rw [ring_afterReceiver]
  simpa using hstep

theorem Refines.stepReceiver {input : Input} (hstep : s.receiver.step cap input s.words = some (w', pc', events)) :
    Refines cap (s.afterReceiver w' pc' events) outcome := by
  have hquiet : ∀ {pc pc' : RecvPc α} {w' : Words α}, s.receiver = pc → SameRing s.words w' →
      pc'.taker = pc.taker → (∀ k, pc'.cursor = some k → s.words.recvs = k) →
      Refines cap (s.afterReceiver w' pc' []) outcome :=
    fun hpc hw htaker hcursor => h.quietReceiver hpc hw htaker rfl hcursor (by simp)
  have hat : ∀ {pc : RecvPc α} {k : ℕ}, s.receiver = pc → pc.cursor = some k → s.words.recvs = k :=
    fun hpc hk => h.cursor _ (hpc ▸ hk)
  generalize hpc : s.receiver = pc at hstep
  cases pc with
  | idle | gone => simp [RecvPc.step] at hstep
  | start call =>
    cases hstep
    have hloop := @RecvCall.loop_cursor α call s.words.recvs
    exact hquiet hpc .rfl hloop.1 (by simp [-RecvPc.cursor, hloop.2])
  | readWake k call | readSenders k seen call | asleep k seen call =>
    cases hstep
    exact hquiet hpc .rfl rfl (by simp [hat hpc rfl])
  | sleep k seen call | woken k call =>
    cases hstep
    exact hquiet hpc ⟨rfl, rfl, rfl, rfl, rfl, rfl⟩ rfl (by simp [hat hpc rfl])
  | countSkip k call | dropReceiver =>
    cases hstep
    exact hquiet hpc ⟨rfl, rfl, rfl, rfl, rfl, rfl⟩ rfl (by simp)
  | checkCancel k seen call =>
    simp only [RecvPc.step] at hstep
    split at hstep
    · cases hstep
      exact h.quietReceiver hpc .rfl rfl (by simp [filterMap_cons]) (by simp) (by simp)
    · cases hstep
      exact hquiet hpc .rfl rfl (by simp [hat hpc rfl])
  | readSlot k seen call closed =>
    simp only [RecvPc.step] at hstep
    split at hstep
    next hs =>
      cases hstep
      exact h.find hpc hs
    next =>
      cases hstep
      exact hquiet hpc .rfl rfl (by simp [hat hpc rfl])
  | advance k =>
    cases hstep
    exact h.advance hpc
  | take k =>
    cases hstep
    exact h.take hpc
  | store k v =>
    cases hstep
    exact h.store hpc
  | notify stage k v =>
    have hsame := stage.step_same s.words
    simp only [RecvPc.step] at hstep
    split at hstep
    next w stage' heq =>
      rw [heq] at hsame
      cases hstep
      exact hquiet hpc hsame rfl (by simp)
    next w heq =>
      rw [heq] at hsame
      cases hstep
      exact h.deliver hpc hsame
  | readSkips k seen call closed =>
    simp only [RecvPc.step] at hstep
    split at hstep <;> cases hstep <;> exact hquiet hpc .rfl rfl (by simp [hat hpc rfl])
  | takeSkip k seen call closed =>
    simp only [RecvPc.step] at hstep
    split at hstep
    next hin =>
      cases hstep
      exact h.takeSkip hpc hin
    next =>
      cases hstep
      exact hquiet hpc .rfl rfl (by simp [hat hpc rfl])
  | passNumber k call =>
    cases hstep
    exact h.passNumber hpc
  | passSlot k call =>
    cases hstep
    exact h.passSlot hpc
  | notifySkip stage k call =>
    have hsame := stage.step_same s.words
    simp only [RecvPc.step] at hstep
    split at hstep
    next w stage' heq =>
      rw [heq] at hsame
      cases hstep
      exact hquiet hpc hsame rfl (by simp [hat hpc rfl])
    next w heq =>
      rw [heq] at hsame
      cases hstep
      have hloop := @RecvCall.loop_cursor α call (k + 1)
      exact hquiet hpc hsame hloop.1 (by simp [-RecvPc.cursor, hloop.2, hat hpc rfl])
  | settle k seen call closed =>
    obtain ⟨htaker, hcursor, hevents⟩ := @RecvCall.settle_cursor α call input k seen closed
    simp only [RecvPc.step, Option.some.injEq, Prod.mk.injEq] at hstep
    obtain ⟨rfl, hsettle⟩ := hstep
    rw [hsettle] at htaker hcursor hevents
    refine h.quietReceiver hpc .rfl htaker ?_ (fun j hj => by rw [hcursor j hj, hat hpc rfl]) ?_
    · rw [filterMap_eq_nil_iff]
      intro event hin
      obtain ⟨why, rfl⟩ := hevents event hin
      rfl
    · intro event hin
      obtain ⟨why, rfl⟩ := hevents event hin
      trivial
  | notifyDrop stage =>
    have hsame := stage.step_same s.words
    simp only [RecvPc.step] at hstep
    split at hstep
    next w stage' heq =>
      rw [heq] at hsame
      cases hstep
      exact hquiet hpc hsame rfl (by simp)
    next w heq =>
      rw [heq] at hsame
      cases hstep
      exact hquiet hpc hsame rfl (by simp)
  | release stage =>
    by_cases hstage : stage = .forget
    · subst hstage
      cases hstep
      refine h.afterReceiver ?_ (by simp) rfl (by simp)
      have hring := ring_forget h.ring (ring_taker hpc outcome)
      rw [ring_afterReceiver]
      simpa [hpc] using hring
    · obtain ⟨hsame, hdelivery, hanswered⟩ := stage.step_ring cap outcome s.words hstage
      simp only [RecvPc.step] at hstep
      split at hstep
      next w stage' events' heq =>
        rw [heq] at hsame hdelivery hanswered
        cases hstep
        exact h.quietReceiver hpc hsame rfl hdelivery (by simp) hanswered
      next w events' heq =>
        rw [heq] at hsame hdelivery hanswered
        cases hstep
        exact h.quietReceiver hpc hsame rfl hdelivery (by simp) hanswered

end Vx.Channel
