import Vx.Wait.Model

namespace Vx.Wait

open Function (update)

variable {ι M W B S κ χ : Type} [DecidableEq ι] [DecidableEq W] [DecidableEq B] [DecidableEq S]

inductive Plain (sys : System ι M W B S κ χ) (s : State ι M W B S κ) (t : ι) :
    Status ι W B S κ → Status ι W B S κ → Prop
  | call {k k' : κ} {x : χ} {c : Call W} (hact : sys.act t k x = some (.wait c k')) :
      Plain sys s t (.running k) (.locking c k')
  | start {k k' : κ} {x : χ} {b : B} {which : Fibers W} (hact : sys.act t k x = some (.wake b which k')) :
      Plain sys s t (.running k) (.wakeLocking b which k')
  | refuse {c : Call W} {k : κ} : Plain sys s t (.testing c k) (.returning c k)
  | pass {c : Call W} {k : κ} (hword : sys.read s.mem c.word = c.value) : Plain sys s t (.testing c k) (.tested c k)
  | late {c : Call W} {k : κ} : Plain sys s t (.tested c k) (.returning c k)
  | rouse {c : Call W} {seen : ℕ} {k : κ} : Plain sys s t (.asleep c seen k) (.roused c seen k)
  | wasWoken {c : Call W} {seen : ℕ} {k : κ}
      (h : c.timed = true ∨ (s.buckets (sys.bucket c.word)).wakes ≠ seen) :
      Plain sys s t (.relocked c seen k) (.returning c k)
  | switch {c : Call W} {k : κ} : Plain sys s t (.parking c k) (.switched c k)
  | requeue {c : Call W} {k : κ} (h : s.fiber t ≠ .parking) : Plain sys s t (.switched c k) (.requeuing k)
  | done {k : κ} : Plain sys s t (.wakeFibers [] k) (.running k)

inductive Acquires (sys : System ι M W B S κ χ) : B → Status ι W B S κ → Status ι W B S κ → Prop
  | wait {c : Call W} {k : κ} : Acquires sys (sys.bucket c.word) (.locking c k) (.testing c k)
  | again {c : Call W} {seen : ℕ} {k : κ} : Acquires sys (sys.bucket c.word) (.roused c seen k) (.relocked c seen k)
  | wake {b : B} {which : Fibers W} {k : κ} : Acquires sys b (.wakeLocking b which k) (.wakeHolding b which k)

inductive Releases (sys : System ι M W B S κ χ) (s : State ι M W B S κ) : B → Status ι W B S κ → Status ι W B S κ → Prop
  | back {c : Call W} {k : κ} : Releases sys s (sys.bucket c.word) (.returning c k) (.running k)
  | host {c : Call W} {k : κ} : Releases sys s (sys.bucket c.word) (.tested c k) (.running k)
  | doze {c : Call W} {k : κ} (h : c.timed = true) :
      Releases sys s (sys.bucket c.word) (.tested c k) (.asleep c (s.buckets (sys.bucket c.word)).wakes k)
  | sleep {c : Call W} {k : κ} :
      Releases sys s (sys.bucket c.word) (.counted c k) (.asleep c (s.buckets (sys.bucket c.word)).wakes k)
  | unlock {b : B} {fibers : List ι} {k : κ} :
      Releases sys s b (.wakeUnblocking b fibers [] k) (.wakeUnlocked b fibers k)

inductive Counts : ℤ → Status ι W B S κ → Status ι W B S κ → Prop
  | up {c : Call W} {k : κ} : Counts 1 (.listed c k) (.counted c k)
  | down {c : Call W} {k : κ} : Counts (-1) (.unlisted c k) (.returning c k)

inductive Change (sys : System ι M W B S κ χ) (s : State ι M W B S κ) : State ι M W B S κ → Prop
  | access {t : ι} {k : κ} {x : χ} {f : M → M × κ} (ht : s.tasks t = .running k)
      (hact : sys.act t k x = some (.access f)) :
      Change sys s { s.set t (.running (f s.mem).2) with mem := (f s.mem).1 }
  | plain {t : ι} {a a' : Status ι W B S κ} (ht : s.tasks t = a) (h : Plain sys s t a a') : Change sys s (s.set t a')
  | acquire {t : ι} {b : B} {a a' : Status ι W B S κ} (ht : s.tasks t = a) (h : Acquires sys b a a')
      (hfree : (s.buckets b).held = none) :
      Change sys s ((s.setBucket b { s.buckets b with held := some t }).set t a')
  | release {t : ι} {b : B} {a a' : Status ι W B S κ} (ht : s.tasks t = a) (h : Releases sys s b a a') :
      Change sys s ((s.release b).set t a')
  | list {t : ι} {c : Call W} {k : κ} (ht : s.tasks t = .tested c k) (htimed : c.timed = false)
      (hsched : sys.sched t = none) :
      Change sys s ((s.setBucket (sys.bucket c.word) { s.buckets (sys.bucket c.word) with
        sleepers := (s.buckets (sys.bucket c.word)).sleepers ++ [t]
        notes := (s.buckets (sys.bucket c.word)).notes ++ [.thread t] }).set t (.listed c k))
  | block {t : ι} {c : Call W} {k : κ} {q : S} (ht : s.tasks t = .tested c k) (htimed : c.timed = false)
      (hsched : sys.sched t = some q) :
      Change sys s ((s.setBucket (sys.bucket c.word) { s.buckets (sys.bucket c.word) with
        blocked := (s.buckets (sys.bucket c.word)).blocked ++ [q]
        notes := (s.buckets (sys.bucket c.word)).notes ++ [.thread t] }).set t (.listed c k))
  | park {t : ι} {c : Call W} {k : κ} {q : S} (ht : s.tasks t = .tested c k) (hsched : sys.sched t = some q) :
      Change sys s { (s.setBucket (sys.bucket c.word) { s.buckets (sys.bucket c.word) with
          held := none
          fibers := (s.buckets (sys.bucket c.word)).fibers ++ [(t, c.word)]
          notes := (s.buckets (sys.bucket c.word)).notes ++ [.fiber t] }).set t (.parking c k) with
        fiber := update s.fiber t .parking }
  | count {t : ι} {n : ℤ} {a a' : Status ι W B S κ} (ht : s.tasks t = a) (h : Counts n a a') :
      Change sys s ((s.count sys t n).set t a')
  | unlist {t : ι} {c : Call W} {seen : ℕ} {k : κ} (ht : s.tasks t = .relocked c seen k) (htimed : c.timed = false)
      (hseen : (s.buckets (sys.bucket c.word)).wakes = seen) (hsched : sys.sched t = none)
      (hnote : .thread t ∈ (s.buckets (sys.bucket c.word)).notes)
      (hmem : t ∈ (s.buckets (sys.bucket c.word)).sleepers) :
      Change sys s ((s.setBucket (sys.bucket c.word) { s.buckets (sys.bucket c.word) with
        notes := (s.buckets (sys.bucket c.word)).notes.erase (.thread t)
        sleepers := (s.buckets (sys.bucket c.word)).sleepers.erase t }).set t (.unlisted c k))
  | unblock {t : ι} {c : Call W} {seen : ℕ} {k : κ} {q : S} (ht : s.tasks t = .relocked c seen k)
      (htimed : c.timed = false) (hseen : (s.buckets (sys.bucket c.word)).wakes = seen) (hsched : sys.sched t = some q)
      (hnote : .thread t ∈ (s.buckets (sys.bucket c.word)).notes)
      (hmem : q ∈ (s.buckets (sys.bucket c.word)).blocked) :
      Change sys s ((s.setBucket (sys.bucket c.word) { s.buckets (sys.bucket c.word) with
        notes := (s.buckets (sys.bucket c.word)).notes.erase (.thread t)
        blocked := (s.buckets (sys.bucket c.word)).blocked.erase q }).set t (.unlisted c k))
  | missing {t : ι} {c : Call W} {seen : ℕ} {k : κ} (ht : s.tasks t = .relocked c seen k) (htimed : c.timed = false)
      (hseen : (s.buckets (sys.bucket c.word)).wakes = seen)
      (h : .thread t ∉ (s.buckets (sys.bucket c.word)).notes ∨
        (sys.sched t = none ∧ t ∉ (s.buckets (sys.bucket c.word)).sleepers) ∨
        ∃ q, sys.sched t = some q ∧ q ∉ (s.buckets (sys.bucket c.word)).blocked) :
      Change sys s (s.set t (.panicked k))
  | parked {t : ι} {c : Call W} {k : κ} (ht : s.tasks t = .switched c k) (hstate : s.fiber t = .parking) :
      Change sys s { s.set t (.parked c k) with fiber := update s.fiber t .parked }
  | queue {t : ι} {k : κ} {q : S} (ht : s.tasks t = .requeuing k) (hsched : sys.sched t = some q) :
      Change sys s { s.set t (.queued k) with ready := update s.ready q (s.ready q ++ [t]) }
  | pop {t : ι} {k : κ} {q : S} {i : ℕ} (hi : (s.ready q)[i]? = some t) (ht : s.tasks t = .queued k) :
      Change sys s { s.set t (.popped k) with ready := update s.ready q ((s.ready q).eraseIdx i) }
  | resume {t : ι} {k : κ} (ht : s.tasks t = .popped k) :
      Change sys s { s.set t (.running k) with fiber := update s.fiber t .running }
  | take {t : ι} {b : B} {which : Fibers W} {k : κ} (ht : s.tasks t = .wakeHolding b which k) :
      Change sys s (s.stepHolding t b which k)
  | uncount {t : ι} {b : B} {fibers : List ι} {n : ℕ} {blocked : List S} {k : κ}
      (ht : s.tasks t = .wakeCounting b fibers n blocked k) :
      Change sys s { s.set t (.wakeUnblocking b fibers blocked k) with waiting := s.waiting - n }
  | unblocked {t : ι} {b : B} {fibers : List ι} {q : S} {blocked : List S} {k : κ}
      (ht : s.tasks t = .wakeUnblocking b fibers (q :: blocked) k) :
      Change sys s { s.set t (.wakeUnblocking b fibers blocked k) with blocked := update s.blocked q (s.blocked q - 1) }
  | notify {t : ι} {b : B} {fibers : List ι} {k : κ} (ht : s.tasks t = .wakeUnlocked b fibers k) :
      Change sys s { s with tasks := update (fun u => (s.tasks u).notify sys b) t (.wakeFibers fibers k) }
  | wakeParked {t f : ι} {fibers : List ι} {k : κ} (ht : s.tasks t = .wakeFibers (f :: fibers) k)
      (hstate : s.fiber f = .parked) :
      Change sys s { s.set t (.wakePushing f fibers k) with fiber := update s.fiber f .woken }
  | wakeParking {t f : ι} {fibers : List ι} {k : κ} (ht : s.tasks t = .wakeFibers (f :: fibers) k)
      (hstate : s.fiber f = .parking) :
      Change sys s { s.set t (.wakeFibers fibers k) with fiber := update s.fiber f .woken }
  | wakeOther {t f : ι} {fibers : List ι} {k : κ} (ht : s.tasks t = .wakeFibers (f :: fibers) k)
      (hstate : s.fiber f ≠ .parked ∧ s.fiber f ≠ .parking) :
      Change sys s { s.set t (.panicked k) with fiber := update s.fiber f .woken }
  | push {t f : ι} {fibers : List ι} {k : κ} (ht : s.tasks t = .wakePushing f fibers k) :
      Change sys s ((s.push sys f).set t (.wakeFibers fibers k))

variable {sys : System ι M W B S κ χ} {s s' : State ι M W B S κ} {t : ι}

theorem acquire_change {b : B} {a a' : Status ι W B S κ} (ht : s.tasks t = a) (hacquires : Acquires sys b a a')
    (h : s.acquire b t a' = some s') : Change sys s s' := by
  unfold State.acquire at h
  split at h
  next hfree =>
    cases h
    exact .acquire ht hacquires hfree
  next => cases h

theorem stepTested_change {c : Call W} {k : κ} (ht : s.tasks t = .tested c k) (input : Input) :
    Change sys s (s.stepTested sys t c k input) := by
  unfold State.stepTested
  dsimp only
  split
  · exact .plain ht .late
  split
  next hpark =>
    simp only [Bool.and_eq_true, Option.isSome_iff_exists] at hpark
    obtain ⟨q, hsched⟩ := hpark.1
    exact .park ht hsched
  split
  · exact .release ht .host
  split
  next htimed => exact .release ht (.doze htimed)
  next htimed =>
    simp only [Bool.not_eq_true] at htimed
    split
    next hsched => exact .list ht htimed hsched
    next q hsched => exact .block ht htimed hsched

theorem stepRelocked_change (hs : s.InTime sys) {c : Call W} {seen : ℕ} {k : κ} (ht : s.tasks t = .relocked c seen k) :
    Change sys s (s.stepRelocked sys t c seen k) := by
  unfold State.stepRelocked
  dsimp only
  split
  next h =>
    simp only [Bool.or_eq_true, decide_eq_true_eq] at h
    exact .plain ht (.wasWoken (h.imp_right fun hne heq => hne (by rw [heq])))
  next h =>
    simp only [Bool.or_eq_true, decide_eq_true_eq, not_or, Bool.not_eq_true, not_not] at h
    have hseen := hs t c seen k ht h.1 h.2
    split
    next hnote => exact .missing ht h.1 hseen (.inl hnote)
    next hnote =>
      rw [not_not] at hnote
      split
      next hsched =>
        split
        next hmem => exact .unlist ht h.1 hseen hsched hnote hmem
        next hmem => exact .missing ht h.1 hseen (.inr (.inl ⟨hsched, hmem⟩))
      next q hsched =>
        split
        next hmem => exact .unblock ht h.1 hseen hsched hnote hmem
        next hmem => exact .missing ht h.1 hseen (.inr (.inr ⟨q, hsched, hmem⟩))

theorem stepTask_change (hs : s.InTime sys) {input : Input} (h : s.stepTask sys t input = some s') : Change sys s s' := by
  unfold State.stepTask at h
  split at h
  · cases h
  · cases h
  · cases h
  · cases h
  · cases h
  next c k ht => exact acquire_change ht .wait h
  next c k ht =>
    split at h
    · cases h
      exact .plain ht .refuse
    next htest =>
      cases h
      simp only [Bool.or_eq_true, decide_eq_true_eq, not_or, not_not] at htest
      exact .plain ht (.pass htest.1)
  next c k ht =>
    cases h
    exact stepTested_change ht input
  next c k ht =>
    cases h
    exact .release ht .back
  next c k ht =>
    cases h
    exact .count ht .up
  next c k ht =>
    cases h
    exact .release ht .sleep
  next c seen k ht => exact acquire_change ht .again h
  next c seen k ht =>
    cases h
    exact stepRelocked_change hs ht
  next c k ht =>
    cases h
    exact .count ht .down
  next c k ht =>
    cases h
    exact .plain ht .switch
  next c k ht =>
    split at h
    next hstate =>
      cases h
      exact .parked ht hstate
    next hstate =>
      cases h
      exact .plain ht (.requeue hstate)
  next k ht =>
    split at h
    next q hsched =>
      cases h
      exact .queue ht hsched
    next => cases h
  next k ht =>
    cases h
    exact .resume ht
  next b which k ht => exact acquire_change ht .wake h
  next b which k ht =>
    cases h
    exact .take ht
  next b fibers n blocked k ht =>
    cases h
    exact .uncount ht
  next b fibers q blocked k ht =>
    cases h
    exact .unblocked ht
  next b fibers k ht =>
    cases h
    exact .release ht .unlock
  next b fibers k ht =>
    cases h
    exact .notify ht
  next f fibers k ht =>
    cases h
    unfold State.wakeFiber
    cases hstate : s.fiber f with
    | parked => exact .wakeParked ht hstate
    | parking => exact .wakeParking ht hstate
    | running | woken => exact .wakeOther ht (by simp [hstate])
  next k ht =>
    cases h
    exact .plain ht .done
  next f fibers k ht =>
    cases h
    exact .push ht

theorem stepClient_change {x : χ} (h : s.stepClient sys t x = some s') : Change sys s s' := by
  unfold State.stepClient at h
  split at h
  next k ht =>
    split at h
    next f hact =>
      cases h
      exact .access ht hact
    next c k' hact =>
      cases h
      exact .plain ht (.call hact)
    next b which k' hact =>
      cases h
      exact .plain ht (.start hact)
    next => cases h
  next => cases h

theorem next_change (h : s.Next sys s') : Change sys s s' := by
  obtain ⟨hs, m, h⟩ := h
  cases m with
  | client t x => exact stepClient_change h
  | step t input => exact stepTask_change hs h
  | rouse t =>
    rw [State.step] at h
    split at h
    next c seen k ht =>
      cases h
      exact .plain ht .rouse
    next => cases h
  | pop q i =>
    rw [State.step, State.pop] at h
    split at h
    · cases h
    next t hi =>
      split at h
      next k ht =>
        cases h
        exact .pop hi ht
      next => cases h

end Vx.Wait
