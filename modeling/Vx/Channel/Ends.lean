import Vx.Channel.Refines

namespace Vx.Channel

open List Finset
open Function (update update_of_ne update_self)

variable {α : Type} {cap : ℕ}

def ReleasePc.weight (stage : ReleasePc) : ℤ := if stage = .ends then 1 else 0

def ReleasePc.sweep (stage : ReleasePc) : Option ReleasePc := if stage = .ends then none else some stage

@[simp]
def SendPc.weight : SendPc α → ℤ
  | .unborn | .gone => 0
  | .release stage => stage.weight
  | _ => 1

@[simp]
def RecvPc.weight : RecvPc α → ℤ
  | .gone => 0
  | .release stage => stage.weight
  | _ => 1

@[simp]
def SendPc.sweep : SendPc α → Option ReleasePc
  | .release stage => stage.sweep
  | _ => none

def RecvPc.sweep : RecvPc α → Option ReleasePc
  | .release stage => stage.sweep
  | _ => none

def SendPc.uncounted : SendPc α → ℤ
  | .countSkip _ _ _ => 1
  | _ => 0

def RecvPc.uncounted : RecvPc α → ℤ
  | .countSkip _ _ => -1
  | _ => 0

def State.weight (s : State α) : Option ℕ → ℤ
  | none => s.receiver.weight
  | some i => (s.senders i).weight

def State.sweep (s : State α) : Option ℕ → Option ReleasePc
  | none => s.receiver.sweep
  | some i => (s.senders i).sweep

def State.uncounted (s : State α) : Option ℕ → ℤ
  | none => s.receiver.uncounted
  | some i => (s.senders i).uncounted

def total (made : ℕ) (f : Option ℕ → ℤ) : ℤ := ∑ i ∈ Finset.range made, f (some i) + f none

def stored (cap : ℕ) (w : Words α) (k : ℕ) : Option (ℕ × α) :=
  if w.slots (k % cap) = 2 * k + 1 then some (k, w.data (k % cap)) else none

def swept (cap : ℕ) (w : Words α) (k : ℕ) : List (ℕ × α) :=
  (List.range' w.recvs (k - w.recvs)).filterMap (stored cap w)

def SweepOk (cap : ℕ) (w : Words α) (dropped : List (ℕ × α)) : ReleasePc → Prop
  | .ends => False
  | .readRecvs => dropped = []
  | .readSends k => dropped = [] ∧ k = w.recvs
  | .scan k stop => w.recvs ≤ k ∧ k ≤ max w.recvs w.sends ∧ stop = w.sends ∧ dropped = swept cap w k
  | .drop k stop =>
    w.recvs ≤ k ∧ k < w.sends ∧ stop = w.sends ∧ dropped = swept cap w k ∧ w.slots (k % cap) = 2 * k + 1
  | .readSkips | .forget => dropped = swept cap w w.sends
  | .free => dropped = swept cap w w.sends ∧ w.skipSet = ∅

inductive Phase (cap : ℕ) (s : State α) : Prop
  | alive (hends : 0 < s.words.ends) (hfreed : s.words.freed = false) (hdropped : s.dropped = [])
      (hsweep : ∀ who, s.sweep who = none)
  | sweeping (who : Option ℕ) (stage : ReleasePc) (hends : s.words.ends = 0) (hfreed : s.words.freed = false)
      (hwho : s.sweep who = some stage) (hothers : ∀ other, other ≠ who → s.sweep other = none)
      (hok : SweepOk cap s.words s.dropped stage)
  | ended (hends : s.words.ends = 0) (hfreed : s.words.freed = true) (hsweep : ∀ who, s.sweep who = none)
      (hdropped : s.dropped = swept cap s.words s.words.sends) (hskips : s.words.skipSet = ∅)

structure Ends (cap : ℕ) (s : State α) : Prop where
  unborn : ∀ i, s.made ≤ i → s.senders i = .unborn
  ends : s.words.ends = total s.made s.weight
  skips : s.words.freed = false → (∀ who, s.sweep who ≠ some .free) →
    s.words.skips + total s.made s.uncounted = s.words.skipSet.card
  phase : Phase cap s

theorem total_update {made : ℕ} {who : Option ℕ} (hwho : ∀ i, who = some i → i < made) (f : Option ℕ → ℤ) (x : ℤ) :
    total made (update f who x) = total made f - f who + x := by
  cases who with
  | none =>
    simp only [total, update_self, ne_eq, reduceCtorEq, not_false_eq_true, update_of_ne]
    ring
  | some i =>
    have hi : i ∈ Finset.range made := Finset.mem_range.mpr (hwho i rfl)
    have hupdate : ∀ j, update f (some i) x (some j) = update (fun j => f (some j)) i x j := by
      intro j
      by_cases hj : j = i <;> simp [hj]
    simp only [total, hupdate, sum_update_of_mem hi, ne_eq, reduceCtorEq, not_false_eq_true, update_of_ne]
    have hsum := sum_erase_add (Finset.range made) (fun j => f (some j)) hi
    rw [sdiff_singleton_eq_erase]
    omega

theorem ReleasePc.weight_nonneg (stage : ReleasePc) : 0 ≤ stage.weight := by
  unfold ReleasePc.weight
  split <;> omega

theorem State.weight_nonneg (s : State α) (who : Option ℕ) : 0 ≤ s.weight who := by
  cases who with
  | none =>
    cases hpc : s.receiver <;> simp [State.weight, hpc, ReleasePc.weight_nonneg]
  | some i =>
    cases hpc : s.senders i <;> simp [State.weight, hpc, ReleasePc.weight_nonneg]

theorem weight_le_total {made : ℕ} {f : Option ℕ → ℤ} (hf : ∀ who, 0 ≤ f who) {who : Option ℕ}
    (hwho : ∀ i, who = some i → i < made) : f who ≤ total made f := by
  have hsum : 0 ≤ ∑ i ∈ Finset.range made, f (some i) := Finset.sum_nonneg fun i _ => hf (some i)
  cases who with
  | none => exact le_add_of_nonneg_left hsum
  | some i =>
    have hle := Finset.single_le_sum (fun i _ => hf (some i)) (Finset.mem_range.mpr (hwho i rfl))
    exact hle.trans (le_add_of_nonneg_right (hf none))

section
variable {s s' : State α} {who : Option ℕ} {events : List (Event α)} {x z : ℤ} {y : Option ReleasePc}

structure Moved (s s' : State α) (who : Option ℕ) (events : List (Event α)) (x : ℤ) (y : Option ReleasePc) (z : ℤ) :
    Prop where
  made : s'.made = s.made
  here : ∀ i, who = some i → i < s.made
  senders : ∀ i, some i ≠ who → s'.senders i = s.senders i
  log : s'.log = s.log ++ events
  weight : s'.weight = update s.weight who x
  sweep : s'.sweep = update s.sweep who y
  uncounted : s'.uncounted = update s.uncounted who z

theorem Moved.dropped (m : Moved s s' who events x y z) : s'.dropped = s.dropped ++ events.filterMap Event.drop := by
  simp [State.dropped, m.log]

theorem Moved.unborn (m : Moved s s' who events x y z) (h : ∀ i, s.made ≤ i → s.senders i = .unborn) (i : ℕ)
    (hi : s'.made ≤ i) : s'.senders i = .unborn := by
  rw [m.made] at hi
  rw [m.senders i, h i hi]
  intro hwho
  have := m.here i hwho.symm
  omega

theorem Moved.total_weight (m : Moved s s' who events x y z) :
    total s'.made s'.weight = total s.made s.weight - s.weight who + x := by
  rw [m.made, m.weight, total_update m.here]

theorem Moved.total_uncounted (m : Moved s s' who events x y z) :
    total s'.made s'.uncounted = total s.made s.uncounted - s.uncounted who + z := by
  rw [m.made, m.uncounted, total_update m.here]

theorem Moved.sweep_self (m : Moved s s' who events x y z) : s'.sweep who = y := by
  rw [m.sweep, update_self]

theorem Moved.sweep_other (m : Moved s s' who events x y z) {other : Option ℕ} (ho : other ≠ who) :
    s'.sweep other = s.sweep other := by
  rw [m.sweep, update_of_ne ho]

theorem Moved.sweep_none (m : Moved s s' who events x none z) (h : ∀ other, other ≠ who → s.sweep other = none)
    (other : Option ℕ) : s'.sweep other = none := by
  by_cases ho : other = who
  · rw [ho, m.sweep_self]
  · rw [m.sweep_other ho, h other ho]

theorem Ends.pos_of_weight (h : Ends cap s) (hwho : ∀ i, who = some i → i < s.made) (hw : s.weight who = 1) :
    0 < s.words.ends := by
  have := weight_le_total s.weight_nonneg hwho
  rw [h.ends]
  omega

theorem Ends.weight_eq_zero (h : Ends cap s) (hends : s.words.ends = 0) (who : Option ℕ) : s.weight who = 0 := by
  have hnonneg := s.weight_nonneg who
  by_cases hwho : ∀ i, who = some i → i < s.made
  · have := weight_le_total s.weight_nonneg hwho
    rw [h.ends] at hends
    omega
  · push Not at hwho
    obtain ⟨i, rfl, hi⟩ := hwho
    simp [State.weight, h.unborn i hi]

theorem State.uncounted_of_weight (who : Option ℕ) (h : s.weight who = 0) : s.uncounted who = 0 := by
  cases who with
  | none => cases hpc : s.receiver <;> simp_all [State.weight, State.uncounted, RecvPc.uncounted]
  | some i => cases hpc : s.senders i <;> simp_all [State.weight, State.uncounted, SendPc.uncounted]

theorem Ends.skips_eq (h : Ends cap s) (hends : s.words.ends = 0) (hfreed : s.words.freed = false)
    (hsweep : ∀ who, s.sweep who ≠ some .free) : s.words.skips = s.words.skipSet.card := by
  have hzero : total s.made s.uncounted = 0 := by
    have hall : ∀ who, s.uncounted who = 0 := fun who => s.uncounted_of_weight who (h.weight_eq_zero hends who)
    simp [total, hall]
  have hskips := h.skips hfreed hsweep
  omega

structure Plain (w w' : Words α) (z z' : ℤ) (events : List (Event α)) : Prop where
  ends : w'.ends = w.ends
  freed : w'.freed = w.freed
  skips : w'.skips + z' - w'.skipSet.card = w.skips + z - w.skipSet.card
  drop : events.filterMap Event.drop = []

theorem Ends.plain (h : Ends cap s) (m : Moved s s' who events 1 none z) (hweight : s.weight who = 1)
    (hplain : Plain s.words s'.words (s.uncounted who) z events) : Ends cap s' := by
  obtain ⟨hends, hfreed, hskips, hdrop⟩ := hplain
  have hpos := h.pos_of_weight m.here hweight
  cases h.phase with
  | sweeping _ _ hends | ended hends => omega
  | alive hends' hfreed' hdropped hnone =>
    refine ⟨m.unborn h.unborn, ?_, ?_, .alive ?_ ?_ ?_ ?_⟩
    · rw [hends, m.total_weight, h.ends]
      omega
    · intro _ _
      have hs := h.skips hfreed' (by simp [hnone])
      rw [m.total_uncounted]
      omega
    · omega
    · rw [hfreed, hfreed']
    · rw [m.dropped, hdropped, hdrop, append_nil]
    · exact m.sweep_none fun other _ => hnone other

theorem swept_succ {w : Words α} {k : ℕ} (hk : w.recvs ≤ k) :
    swept cap w (k + 1) = swept cap w k ++ (stored cap w k).toList := by
  have hlength : k + 1 - w.recvs = k - w.recvs + 1 := by omega
  rw [swept, hlength, List.range'_concat, filterMap_append, swept]
  congr 1
  rw [show w.recvs + 1 * (k - w.recvs) = k by omega]
  cases hk : stored cap w k <;> simp [hk]

variable {stage : ReleasePc} {next : Option ReleasePc}

theorem ReleasePc.step_sweep {w w' : Words α} {dropped : List (ℕ × α)}
    (hok : SweepOk cap w dropped stage) (hskips : stage = .readSkips → w.skips = w.skipSet.card)
    (hstep : stage.step cap w = (w', next, events)) : w'.ends = w.ends ∧
      ((∃ stage', next = some stage' ∧ stage' ≠ .ends ∧ w'.freed = w.freed ∧
          SweepOk cap w' (dropped ++ events.filterMap Event.drop) stage' ∧
          (stage' = .free ∨ w'.skips = w.skips ∧ w'.skipSet = w.skipSet)) ∨
        next = none ∧ w'.freed = true ∧ w'.skipSet = ∅ ∧
          dropped ++ events.filterMap Event.drop = swept cap w' w'.sends) := by
  cases stage with
  | ends => exact hok.elim
  | readRecvs =>
    cases hstep
    refine ⟨rfl, .inl ⟨_, rfl, by simp, rfl, ?_, .inr ⟨rfl, rfl⟩⟩⟩
    exact ⟨by simpa [SweepOk] using hok, rfl⟩
  | readSends k =>
    obtain ⟨hnil, rfl⟩ := hok
    cases hstep
    refine ⟨rfl, .inl ⟨_, rfl, by simp, rfl, ?_, .inr ⟨rfl, rfl⟩⟩⟩
    exact ⟨le_rfl, le_max_left _ _, rfl, by simp [hnil, swept]⟩
  | scan k stop =>
    obtain ⟨hle, hmax, rfl, hdropped⟩ := hok
    simp only [ReleasePc.step] at hstep
    split at hstep
    next hlt =>
      split at hstep
      next hslot =>
        cases hstep
        refine ⟨rfl, .inl ⟨_, rfl, by simp, rfl, ?_, .inr ⟨rfl, rfl⟩⟩⟩
        exact ⟨hle, hlt, rfl, by simpa using hdropped, hslot⟩
      next hslot =>
        cases hstep
        refine ⟨rfl, .inl ⟨_, rfl, by simp, rfl, ?_, .inr ⟨rfl, rfl⟩⟩⟩
        refine ⟨by omega, by omega, rfl, ?_⟩
        simp [swept_succ hle, stored, hslot, hdropped]
    next hge =>
      cases hstep
      refine ⟨rfl, .inl ⟨_, rfl, by simp, rfl, ?_, .inr ⟨rfl, rfl⟩⟩⟩
      have hlength : k - w.recvs = w.sends - w.recvs := by omega
      simp [SweepOk, hdropped, swept, hlength]
  | drop k stop =>
    obtain ⟨hle, hlt, rfl, hdropped, hslot⟩ := hok
    cases hstep
    refine ⟨rfl, .inl ⟨_, rfl, by simp, rfl, ?_, .inr ⟨rfl, rfl⟩⟩⟩
    refine ⟨by omega, by omega, rfl, ?_⟩
    simp [swept_succ hle, stored, hslot, hdropped, Event.drop]
  | readSkips =>
    cases hstep
    refine ⟨rfl, .inl ⟨_, rfl, ?_, rfl, ?_, .inr ⟨rfl, rfl⟩⟩⟩
    · split <;> simp
    split
    next => simpa [SweepOk] using hok
    next hle =>
      refine ⟨by simpa [SweepOk] using hok, Finset.card_eq_zero.mp ?_⟩
      have := hskips rfl
      omega
  | forget =>
    cases hstep
    refine ⟨rfl, .inl ⟨_, rfl, by simp, rfl, ?_, .inl rfl⟩⟩
    exact ⟨(append_nil _).trans hok, rfl⟩
  | free =>
    cases hstep
    exact ⟨rfl, .inr ⟨rfl, rfl, hok.2, (append_nil _).trans hok.1⟩⟩

theorem Ends.releaseEnd (h : Ends cap s) (hweight : s.weight who = 1) (huncounted : s.uncounted who = 0) (hstep : ReleasePc.ends.step cap s.words = (s'.words, next, events))
    (m : Moved s s' who events (next.elim 0 ReleasePc.weight) (next.bind ReleasePc.sweep) 0) : Ends cap s' := by
  have hpos := h.pos_of_weight m.here hweight
  have htotal := m.total_weight
  have hends := h.ends
  simp only [ReleasePc.step, Prod.mk.injEq] at hstep
  obtain ⟨hw, hnext, rfl⟩ := hstep
  cases h.phase with
  | sweeping _ _ hends | ended hends => omega
  | alive _ hfreed hdropped hnone =>
    have hskips := h.skips hfreed (by simp [hnone])
    have hnoDrop : s'.dropped = [] := by rw [m.dropped, hdropped]; rfl
    refine ⟨m.unborn h.unborn, ?_, ?_, ?_⟩
    · subst hnext
      rw [htotal, ← hw, hweight, ← hends]
      split <;> simp [ReleasePc.weight]
    · intro _ _
      rw [m.total_uncounted, huncounted, ← hw]
      simpa using hskips
    · by_cases hlast : s.words.ends = 1
      · rw [if_pos hlast] at hnext
        subst hnext
        refine .sweeping who .readRecvs ?_ ?_ m.sweep_self ?_ hnoDrop
        · rw [← hw, hlast]
          rfl
        · rw [← hw, ← hfreed]
        · intro other ho
          rw [m.sweep_other ho, hnone other]
      · rw [if_neg hlast] at hnext
        subst hnext
        refine .alive ?_ ?_ hnoDrop (m.sweep_none fun other _ => hnone other)
        · rw [← hw]
          change 0 < s.words.ends - 1
          omega
        · rw [← hw, ← hfreed]

theorem Ends.sweep (h : Ends cap s) (hstage : s.sweep who = some stage) (huncounted : s.uncounted who = 0)
    (hstep : stage.step cap s.words = (s'.words, next, events))
    (m : Moved s s' who events (next.elim 0 ReleasePc.weight) (next.bind ReleasePc.sweep) 0) : Ends cap s' := by
  cases h.phase with
  | alive _ _ _ hnone | ended _ _ hnone => simp [hnone] at hstage
  | sweeping who' stage' hends hfreed hwho hothers hok =>
    obtain rfl : who = who' := by
      by_contra hne
      simp [hothers who hne] at hstage
    obtain rfl : stage' = stage := by simpa [hwho] using hstage
    have hfree : stage' ≠ .free → ∀ other, s.sweep other ≠ some .free := by
      intro hne other
      by_cases ho : other = who
      · rw [ho, hwho]
        simpa using hne
      · simp [hothers other ho]
    have hskips : stage' = .readSkips → s.words.skips = s.words.skipSet.card := by
      rintro rfl
      exact h.skips_eq hends hfreed (hfree (by simp))
    have hzero := h.weight_eq_zero hends who
    obtain ⟨hends', hnext⟩ := ReleasePc.step_sweep hok hskips hstep
    rw [← m.dropped] at hnext
    rcases hnext with ⟨stage'', rfl, hne, hfreed', hok', hskips'⟩ | ⟨rfl, hfreed', hskips', hdropped⟩
    · refine ⟨m.unborn h.unborn, ?_, ?_, .sweeping who stage'' (hends'.trans hends) (hfreed'.trans hfreed) ?_ ?_ hok'⟩
      · rw [m.total_weight, hends', h.ends]
        simp [ReleasePc.weight, hne, hzero]
      · intro _ hfree'
        have hself := hfree' who
        rw [m.sweep_self] at hself
        rcases hskips' with rfl | ⟨hskips', hset⟩
        · exact absurd rfl hself
        have hnotFree : stage' ≠ .free := by
          rintro rfl
          simp [ReleasePc.step] at hstep
        rw [m.total_uncounted, huncounted, hskips', hset]
        simpa using h.skips hfreed (hfree hnotFree)
      · rw [m.sweep_self]
        simp [ReleasePc.sweep, hne]
      · intro other ho
        rw [m.sweep_other ho, hothers other ho]
    · refine ⟨m.unborn h.unborn, ?_, ?_, .ended (hends'.trans hends) hfreed' ?_ hdropped hskips'⟩
      · rw [m.total_weight, hends', h.ends]
        simp [hzero]
      · intro hf
        rw [hfreed'] at hf
        cases hf
      · exact m.sweep_none hothers

theorem Ends.release (h : Ends cap s) (hweight : s.weight who = stage.weight)
    (hsweep : s.sweep who = stage.sweep) (huncounted : s.uncounted who = 0)
    (hstep : stage.step cap s.words = (s'.words, next, events))
    (m : Moved s s' who events (next.elim 0 ReleasePc.weight) (next.bind ReleasePc.sweep) 0) : Ends cap s' := by
  by_cases hstage : stage = .ends
  · subst hstage
    exact h.releaseEnd hweight huncounted hstep m
  · rw [ReleasePc.sweep, if_neg hstage] at hsweep
    exact h.sweep hsweep huncounted hstep m

variable {s : State α} {i : ℕ} {pc pc' : SendPc α} {w w' : Words α} {input : Input}

theorem moved_afterSender (hi : i < s.made) :
    Moved s (s.afterSender i w' pc' events) (some i) events pc'.weight pc'.sweep pc'.uncounted where
  made := rfl
  here j hj := by
    cases hj
    exact hi
  senders j hj := update_of_ne (fun h => hj (congrArg some h)) _ _
  log := rfl
  weight := by
    funext who
    rcases who with _ | j
    · rfl
    · by_cases hj : j = i <;> simp [State.weight, hj]
  sweep := by
    funext who
    rcases who with _ | j
    · rfl
    · by_cases hj : j = i <;> simp [State.sweep, hj]
  uncounted := by
    funext who
    rcases who with _ | j
    · rfl
    · by_cases hj : j = i <;> simp [State.uncounted, hj]

theorem NotifyPc.step_plain {stage : NotifyPc} {next : Option NotifyPc} (h : stage.step w = (w', next))
    (hdrop : events.filterMap Event.drop = []) : Plain w w' 0 0 events := by
  cases stage <;> cases h <;> exact ⟨rfl, rfl, rfl, hdrop⟩

theorem SendPc.step_plain (hrelease : ∀ stage, pc ≠ .release stage)
    (hstep : pc.step cap input w = some (w', pc', events)) (hpanicked : w'.panicked = false) :
    pc.weight = 1 ∧ pc'.weight = 1 ∧ pc'.sweep = none ∧ Plain w w' pc.uncounted pc'.uncounted events := by
  cases pc with
  | unborn | idle | gone | cloneEnds => simp [SendPc.step] at hstep
  | release stage => exact absurd rfl (hrelease stage)
  | enter call | readReceiver k seen call | readSlot k seen call | check k seen call =>
    simp only [SendPc.step] at hstep
    split at hstep <;> cases hstep <;> exact ⟨rfl, rfl, rfl, rfl, rfl, rfl, rfl⟩
  | number call | readWake k call | write k call | publish k call | sleep k seen call | asleep k seen call
  | woken k call | clone =>
    cases hstep
    exact ⟨rfl, rfl, rfl, rfl, rfl, rfl, rfl⟩
  | dropSender =>
    cases hstep
    split <;> exact ⟨rfl, rfl, rfl, rfl, rfl, rfl, rfl⟩
  | skip k call wasCancelled =>
    simp only [SendPc.step] at hstep
    split at hstep
    · cases hstep
      cases hpanicked
    next hnew =>
      cases hstep
      refine ⟨rfl, rfl, rfl, rfl, rfl, ?_, rfl⟩
      simp only [card_insert_of_notMem hnew, SendPc.uncounted]
      omega
  | countSkip k call wasCancelled =>
    cases hstep
    refine ⟨rfl, rfl, rfl, rfl, rfl, ?_, rfl⟩
    simp only [SendPc.uncounted]
    omega
  | notify stage result | notifyDrop stage =>
    simp only [SendPc.step] at hstep
    split at hstep
    next heq =>
      cases hstep
      exact ⟨rfl, rfl, rfl, NotifyPc.step_plain heq rfl⟩
    next heq =>
      cases hstep
      exact ⟨rfl, rfl, rfl, NotifyPc.step_plain heq rfl⟩

theorem Ends.here (h : Ends cap s) (hpc : s.senders i ≠ .unborn) : i < s.made := by
  by_contra hi
  exact hpc (h.unborn i (by omega))

theorem Ends.stepSender (h : Ends cap s) (hstep : (s.senders i).step cap input s.words = some (w', pc', events))
    (hpanicked : w'.panicked = false) : Ends cap (s.afterSender i w' pc' events) := by
  have hi : i < s.made := by
    apply h.here
    intro hpc
    simp [hpc, SendPc.step] at hstep
  have m : Moved s (s.afterSender i w' pc' events) (some i) events _ _ _ := moved_afterSender hi
  by_cases hrelease : ∃ stage, s.senders i = .release stage
  · obtain ⟨stage, hpc⟩ := hrelease
    rw [hpc] at hstep
    have hweight : s.weight (some i) = stage.weight := by simp [State.weight, hpc]
    have hsweep : s.sweep (some i) = stage.sweep := by simp [State.sweep, hpc]
    have huncounted : s.uncounted (some i) = 0 := by simp [State.uncounted, hpc, SendPc.uncounted]
    simp only [SendPc.step] at hstep
    split at hstep
    next heq =>
      cases hstep
      exact h.release hweight hsweep huncounted heq m
    next heq =>
      cases hstep
      exact h.release hweight hsweep huncounted heq m
  · push Not at hrelease
    obtain ⟨hweight, hweight', hsweep', hplain⟩ := SendPc.step_plain hrelease hstep hpanicked
    rw [hweight', hsweep'] at m
    exact h.plain m hweight hplain

theorem Ends.callSender (h : Ends cap s) (hpc : s.senders i = .idle) (op : SendOp α) :
    Ends cap (s.afterSender i s.words op.entry []) := by
  have hi : i < s.made := h.here (by simp [hpc])
  have m : Moved s (s.afterSender i s.words op.entry []) (some i) [] _ _ _ := moved_afterSender hi
  have hentry : op.entry.weight = 1 ∧ op.entry.sweep = none ∧ op.entry.uncounted = 0 := by
    cases op <;> exact ⟨rfl, rfl, rfl⟩
  rw [hentry.1, hentry.2.1, hentry.2.2] at m
  refine h.plain m (by simp [State.weight, hpc]) ⟨rfl, rfl, ?_, rfl⟩
  simp [State.uncounted, hpc, SendPc.uncounted]

@[simp]
def State.afterClone (s : State α) (i : ℕ) : State α :=
  { s with
    words := { s.words with ends := s.words.ends + 1 }
    senders := update (update s.senders i .idle) s.made .idle
    made := s.made + 1 }

theorem Ends.clone (h : Ends cap s) (hpc : s.senders i = .cloneEnds) : Ends cap (s.afterClone i) := by
  have hi : i < s.made := h.here (by simp [hpc])
  have hsenders : ∀ j < s.made, (s.afterClone i).senders j = if j = i then .idle else s.senders j := by
    intro j hj
    have hne : j ≠ s.made := by omega
    by_cases hji : j = i <;> simp [hne, hji, hi.ne]
  have hmade : (s.afterClone i).senders s.made = .idle := by simp
  have hsum : ∀ f : SendPc α → ℤ, f .idle = f .cloneEnds →
      ∑ j ∈ Finset.range (s.made + 1), f ((s.afterClone i).senders j) =
        ∑ j ∈ Finset.range s.made, f (s.senders j) + f .idle := by
    intro f hf
    rw [Finset.sum_range_succ, hmade]
    congr 1
    refine sum_congr rfl fun j hj => ?_
    rw [hsenders j (Finset.mem_range.mp hj)]
    split
    next hji => rw [hji, hpc, hf]
    next => rfl
  have hpos : 0 < s.words.ends := by
    have hhere : ∀ j, some i = some j → j < s.made := by
      rintro j ⟨⟩
      exact hi
    exact h.pos_of_weight hhere (by simp [State.weight, hpc])
  cases h.phase with
  | sweeping _ _ hends | ended hends => omega
  | alive _ hfreed hdropped hnone =>
    refine ⟨?_, ?_, ?_, .alive ?_ hfreed hdropped ?_⟩
    · intro j hj
      change s.made + 1 ≤ j at hj
      have hne : j ≠ s.made := by omega
      have hne' : j ≠ i := by omega
      simpa [hne, hne'] using h.unborn j (by omega)
    · have := hsum SendPc.weight rfl
      have hends := h.ends
      change s.words.ends + 1 = ∑ j ∈ Finset.range (s.made + 1), ((s.afterClone i).senders j).weight + s.receiver.weight
      change s.words.ends = ∑ j ∈ Finset.range s.made, (s.senders j).weight + s.receiver.weight at hends
      rw [this, hends]
      simp only [SendPc.weight]
      ring
    · intro _ _
      have := hsum SendPc.uncounted rfl
      have hskips := h.skips hfreed (by simp [hnone])
      change s.words.skips +
        (∑ j ∈ Finset.range (s.made + 1), ((s.afterClone i).senders j).uncounted + s.receiver.uncounted) = _
      have hidle : (SendPc.idle : SendPc α).uncounted = 0 := rfl
      rw [this, hidle, add_zero]
      exact hskips
    · change 0 < s.words.ends + 1
      omega
    · intro who
      rcases who with _ | j
      · exact hnone none
      change ((s.afterClone i).senders j).sweep = none
      by_cases hj : j = s.made
      · rw [hj, hmade]
        rfl
      by_cases hji : j = i
      · rw [hji, hsenders i hi, if_pos rfl]
        rfl
      · have hsame : (s.afterClone i).senders j = s.senders j := by simp [hj, hji]
        rw [hsame]
        exact hnone (some j)

end

variable {s : State α} {pc pc' : RecvPc α} {w w' : Words α} {events : List (Event α)} {input : Input}

theorem moved_afterReceiver :
    Moved s (s.afterReceiver w' pc' events) none events pc'.weight pc'.sweep pc'.uncounted where
  made := rfl
  here j hj := by cases hj
  senders j hj := rfl
  log := rfl
  weight := by
    funext who
    rcases who with _ | j <;> rfl
  sweep := by
    funext who
    rcases who with _ | j <;> rfl
  uncounted := by
    funext who
    rcases who with _ | j <;> rfl

theorem RecvCall.loop_plain (call : RecvCall) (k : ℕ) :
    (call.loop k : RecvPc α).weight = 1 ∧ (call.loop k : RecvPc α).sweep = none ∧
      (call.loop k : RecvPc α).uncounted = 0 := by
  cases call <;> exact ⟨rfl, rfl, rfl⟩

theorem RecvPc.step_plain (hrelease : ∀ stage, pc ≠ .release stage)
    (hstep : pc.step cap input w = some (w', pc', events)) :
    pc.weight = 1 ∧ pc'.weight = 1 ∧ pc'.sweep = none ∧ Plain w w' pc.uncounted pc'.uncounted events := by
  cases pc with
  | idle | gone => simp [RecvPc.step] at hstep
  | release stage => exact absurd rfl (hrelease stage)
  | start call =>
    cases hstep
    obtain ⟨hweight, hsweep, huncounted⟩ := @RecvCall.loop_plain α call w.recvs
    exact ⟨rfl, hweight, hsweep, rfl, rfl, by rw [huncounted]; rfl, rfl⟩
  | checkCancel k seen call | readSlot k seen call closed | readSkips k seen call closed =>
    simp only [RecvPc.step] at hstep
    split at hstep <;> cases hstep <;> exact ⟨rfl, rfl, rfl, rfl, rfl, rfl, rfl⟩
  | readWake k call | readSenders k seen call | advance k | take k | store k v | passNumber k call
  | passSlot k call | sleep k seen call | asleep k seen call | woken k call | dropReceiver =>
    cases hstep
    exact ⟨rfl, rfl, rfl, rfl, rfl, rfl, rfl⟩
  | takeSkip k seen call closed =>
    simp only [RecvPc.step] at hstep
    split at hstep
    next hin =>
      cases hstep
      refine ⟨rfl, rfl, rfl, rfl, rfl, ?_, rfl⟩
      have hcard := card_erase_add_one hin
      simp only [RecvPc.uncounted]
      omega
    next =>
      cases hstep
      exact ⟨rfl, rfl, rfl, rfl, rfl, rfl, rfl⟩
  | countSkip k call =>
    cases hstep
    refine ⟨rfl, rfl, rfl, rfl, rfl, ?_, rfl⟩
    simp only [RecvPc.uncounted]
    omega
  | settle k seen call closed =>
    cases call with
    | tryRecv =>
      cases hstep
      exact ⟨rfl, rfl, rfl, rfl, rfl, rfl, rfl⟩
    | recv timed =>
      simp only [RecvPc.step, RecvCall.settle] at hstep
      split_ifs at hstep <;> cases hstep <;> exact ⟨rfl, rfl, rfl, rfl, rfl, rfl, rfl⟩
  | notify stage k v | notifyDrop stage =>
    simp only [RecvPc.step] at hstep
    split at hstep
    next heq =>
      cases hstep
      exact ⟨rfl, rfl, rfl, NotifyPc.step_plain heq rfl⟩
    next heq =>
      cases hstep
      exact ⟨rfl, rfl, rfl, NotifyPc.step_plain heq rfl⟩
  | notifySkip stage k call =>
    simp only [RecvPc.step] at hstep
    split at hstep
    next heq =>
      cases hstep
      exact ⟨rfl, rfl, rfl, NotifyPc.step_plain heq rfl⟩
    next heq =>
      cases hstep
      obtain ⟨hweight, hsweep, huncounted⟩ := @RecvCall.loop_plain α call (k + 1)
      refine ⟨rfl, hweight, hsweep, ?_⟩
      rw [huncounted]
      exact NotifyPc.step_plain heq rfl

theorem Ends.stepReceiver (h : Ends cap s) (hstep : s.receiver.step cap input s.words = some (w', pc', events)) :
    Ends cap (s.afterReceiver w' pc' events) := by
  have m : Moved s (s.afterReceiver w' pc' events) none events _ _ _ := moved_afterReceiver
  by_cases hrelease : ∃ stage, s.receiver = .release stage
  · obtain ⟨stage, hpc⟩ := hrelease
    rw [hpc] at hstep
    have hweight : s.weight none = stage.weight := by simp [State.weight, hpc]
    have hsweep : s.sweep none = stage.sweep := by simp [State.sweep, hpc, RecvPc.sweep]
    have huncounted : s.uncounted none = 0 := by simp [State.uncounted, hpc, RecvPc.uncounted]
    simp only [RecvPc.step] at hstep
    split at hstep
    next heq =>
      cases hstep
      exact h.release hweight hsweep huncounted heq m
    next heq =>
      cases hstep
      exact h.release hweight hsweep huncounted heq m
  · push Not at hrelease
    obtain ⟨hweight, hweight', hsweep', hplain⟩ := RecvPc.step_plain hrelease hstep
    rw [hweight', hsweep'] at m
    exact h.plain m hweight hplain

theorem Ends.callReceiver (h : Ends cap s) (hpc : s.receiver = .idle) (op : RecvOp) :
    Ends cap (s.afterReceiver s.words op.entry []) := by
  have m : Moved s (s.afterReceiver s.words op.entry []) none [] _ _ _ := moved_afterReceiver
  have hentry : (op.entry : RecvPc α).weight = 1 ∧ (op.entry : RecvPc α).sweep = none ∧
      (op.entry : RecvPc α).uncounted = 0 := by
    cases op <;> exact ⟨rfl, rfl, rfl⟩
  rw [hentry.1, hentry.2.1, hentry.2.2] at m
  refine h.plain m (by simp [State.weight, hpc]) ⟨rfl, rfl, ?_, rfl⟩
  simp [State.uncounted, hpc, RecvPc.uncounted]

end Vx.Channel
