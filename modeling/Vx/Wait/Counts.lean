import Vx.Wait.Sleepers

namespace Vx.Wait

open List Option Finset
open Function (update update_of_ne update_self)
open Relation (ReflTransGen)

variable {ι M W B S κ χ : Type} [DecidableEq ι] [DecidableEq W] [DecidableEq B] [DecidableEq S] [Fintype ι] [Fintype B]
  {sys : System ι M W B S κ χ} {s s' : State ι M W B S κ} {t : ι}

section
variable {a' : Status ι W B S κ} {b : B} (h : CountsInv sys s)
include h
variable (htasks : s'.tasks = update s.tasks t a')
include htasks

omit [DecidableEq W] in
theorem CountsInv.relist {w : Waiters ι W S} (hbuckets : s'.buckets = update s.buckets b w)
    (hwaiting : s'.waiting + a'.owes sys t + (s.buckets b).sleepers.length =
      s.waiting + (s.tasks t).owes sys t + w.sleepers.length)
    (hblocked : ∀ q, s'.blocked q + a'.owesBlocked sys q t + (s.buckets b).blocked.count q =
      s.blocked q + (s.tasks t).owesBlocked sys q t + w.blocked.count q) : CountsInv sys s' := by
  refine ⟨?_, fun q => ?_⟩
  · have howes := sum_update (fun u st => st.owes sys u) s.tasks t a'
    have hlists := sum_update (fun _ w => (w.sleepers.length : ℤ)) s.buckets b w
    have := h.waiting
    rw [htasks, hbuckets]
    omega
  · have howes := sum_update (fun u st => st.owesBlocked sys q u) s.tasks t a'
    have hlists := sum_update (fun _ w => (w.blocked.count q : ℤ)) s.buckets b w
    have := h.blocked q
    have := hblocked q
    rw [htasks, hbuckets]
    omega

omit [DecidableEq W] [DecidableEq B] in
theorem CountsInv.set
    (hbuckets : s'.buckets = s.buckets) (hwaiting : s'.waiting + a'.owes sys t = s.waiting + (s.tasks t).owes sys t)
    (hblocked : ∀ q, s'.blocked q + a'.owesBlocked sys q t = s.blocked q + (s.tasks t).owesBlocked sys q t) :
    CountsInv sys s' := by
  refine ⟨?_, fun q => ?_⟩
  · have howes := sum_update (fun u st => st.owes sys u) s.tasks t a'
    have := h.waiting
    rw [htasks, hbuckets]
    omega
  · have howes := sum_update (fun u st => st.owesBlocked sys q u) s.tasks t a'
    have := h.blocked q
    have := hblocked q
    rw [htasks, hbuckets]
    omega

omit [DecidableEq W] in
theorem CountsInv.still {w : Waiters ι W S} (hbuckets : s'.buckets = update s.buckets b w)
    (hsleepers : w.sleepers = (s.buckets b).sleepers) (hlist : w.blocked = (s.buckets b).blocked)
    (hwaiting : s'.waiting = s.waiting) (hblocked : s'.blocked = s.blocked)
    (howes : a'.owes sys t = (s.tasks t).owes sys t)
    (howesBlocked : ∀ q, a'.owesBlocked sys q t = (s.tasks t).owesBlocked sys q t) : CountsInv sys s' :=
  h.relist htasks hbuckets (by rw [hwaiting, howes, hsleepers]) fun q => by rw [hblocked, howesBlocked, hlist]

omit htasks

omit [DecidableEq W] [DecidableEq B] in
theorem CountsInv.count {n : ℤ} {a : Status ι W B S κ} (ht : s.tasks t = a) (hcounts : Counts n a a') :
    CountsInv sys ((s.count sys t n).set t a') := by
  refine h.set (congrArg (update · _ _) (count_tasks s _ _)) (count_buckets s _ _) ?_ fun q => ?_
  · rw [ht]
    unfold State.count
    cases hsched : sys.sched t with
    | none | some q => cases hcounts <;> simp [State.set, Status.owes, hsched]
  · rw [ht]
    unfold State.count
    cases hsched : sys.sched t with
    | none => cases hcounts <;> simp [State.set, Status.owesBlocked, hsched]
    | some q' =>
      by_cases hq : q = q'
      · subst hq
        cases hcounts <;> simp [State.set, Status.owesBlocked, hsched]
      · cases hcounts <;> simp [State.set, Status.owesBlocked, hsched, hq, Ne.symm hq]

theorem CountsInv.take {which : Fibers W} {k : κ} (ht : s.tasks t = .wakeHolding b which k) :
    CountsInv sys (s.stepHolding t b which k) := by
  refine h.relist (t := t) (b := b) rfl rfl ?_ fun q => ?_
  · rw [ht]
    simp only [State.stepHolding, State.set, State.setBucket, Status.owes, length_nil]
    omega
  · rw [ht]
    simp only [State.stepHolding, State.set, State.setBucket, Status.owesBlocked, count_nil]
    omega

omit [DecidableEq W] in
theorem CountsInv.notify {fibers : List ι} {k : κ} (ht : s.tasks t = .wakeUnlocked b fibers k) :
    CountsInv sys { s with tasks := update (fun u => (s.tasks u).notify sys b) t (.wakeFibers fibers k) } := by
  have hnotify : CountsInv sys { s with tasks := fun u => (s.tasks u).notify sys b } := by
    refine ⟨?_, fun q => ?_⟩
    · rw [sum_congr rfl fun u _ => notify_attr (fun st => st.owes sys u) (fun _ _ _ => rfl) (s.tasks u) b]
      exact h.waiting
    · rw [sum_congr rfl fun u _ => notify_attr (fun st => st.owesBlocked sys q u) (fun _ _ _ => rfl) (s.tasks u) b]
      exact h.blocked q
  refine hnotify.set (t := t) rfl rfl ?_ fun q => ?_
  · dsimp only
    rw [ht]
    rfl
  · dsimp only
    rw [ht]
    rfl

omit [DecidableEq W] [DecidableEq B] in
theorem CountsInv.push (f : ι) : CountsInv sys (s.push sys f) := by
  unfold State.push
  split
  next hf => exact h.set rfl rfl (by rw [hf]; rfl) fun q => by rw [hf]; rfl
  next => exact h

omit h

theorem Inv.counts_step (h : Inv sys s) (hstep : Change sys s s') : CountsInv sys s' := by
  cases hstep with
  | access ht | parked ht | queue ht | pop _ ht | resume ht | wakeParked ht | wakeParking ht =>
    exact h.counts.set rfl rfl (by rw [ht]; rfl) fun q => by rw [ht]; rfl
  | plain ht hplain =>
    refine h.counts.set rfl rfl ?_ fun q => ?_ <;> rw [ht] <;> cases hplain <;> rfl
  | acquire ht hacquires =>
    refine h.counts.still rfl rfl rfl rfl rfl rfl ?_ fun q => ?_ <;> rw [ht] <;> cases hacquires <;> rfl
  | release ht hreleases =>
    refine h.counts.still rfl rfl rfl rfl rfl rfl ?_ fun q => ?_ <;> rw [ht] <;> cases hreleases <;> rfl
  | list ht _ hsched =>
    refine h.counts.relist rfl rfl ?_ fun q => ?_
    · simp only [ht, State.set, State.setBucket, Status.owes, hsched, if_true, length_append, length_singleton]
      omega
    · simp only [ht, State.set, State.setBucket, Status.owesBlocked, hsched, reduceCtorEq, if_false]
  | @block t c k q' ht _ hsched =>
    refine h.counts.relist rfl rfl ?_ fun q => ?_
    · simp only [ht, State.set, State.setBucket, Status.owes, hsched, reduceCtorEq, if_false]
    simp only [ht, State.set, State.setBucket, Status.owesBlocked, hsched, count_append_singleton, Option.some.injEq]
    by_cases hq : q' = q
    · simp only [hq, if_true]
      omega
    · simp only [hq, if_false]
      omega
  | park ht => exact h.counts.still rfl rfl rfl rfl rfl rfl (by rw [ht]; rfl) fun q => by rw [ht]; rfl
  | count ht hcounts => exact h.counts.count ht hcounts
  | unlist ht _ _ hsched _ hmem =>
    have hpos := length_pos_of_mem hmem
    refine h.counts.relist rfl rfl ?_ fun q => ?_
    · simp only [ht, State.set, State.setBucket, Status.owes, hsched, if_true, length_erase_of_mem hmem]
      omega
    · simp only [ht, State.set, State.setBucket, Status.owesBlocked, hsched, reduceCtorEq, if_false]
  | @unblock t c seen k q' ht _ _ hsched _ hmem =>
    refine h.counts.relist rfl rfl ?_ fun q => ?_
    · simp only [ht, State.set, State.setBucket, Status.owes, hsched, reduceCtorEq, if_false]
    simp only [ht, State.set, State.setBucket, Status.owesBlocked, hsched, count_erase_one, Option.some.injEq]
    by_cases hq : q' = q
    · subst hq
      have hpos := List.count_pos_iff.mpr hmem
      simp only [if_true]
      omega
    · simp only [hq, if_false]
      omega
  | missing ht htimed hseen hmissing => exact (h.threads.not_missing ht htimed hseen hmissing).elim
  | take ht => exact h.counts.take ht
  | uncount ht =>
    refine h.counts.set rfl rfl ?_ fun q => by rw [ht]; rfl
    simp only [ht, Status.owes]
    omega
  | @unblocked t b fibers q' blocked k ht =>
    refine h.counts.set rfl rfl (by rw [ht]; rfl) fun q => ?_
    simp only [ht, Status.owesBlocked, List.count_cons, beq_iff_eq]
    by_cases hq : q' = q
    · subst hq
      simp only [update_self, if_true]
      omega
    · simp only [update_of_ne (Ne.symm hq), hq, if_false]
      omega
  | notify ht => exact h.counts.notify ht
  | wakeOther ht hstate => exact (h.fibers.not_other ht hstate).elim
  | push ht =>
    have ht' := push_other sys s ht
    exact (h.counts.push _).set rfl rfl (by rw [ht']; rfl) fun q => by rw [ht']; rfl

end

omit [DecidableEq W] [DecidableEq B] [DecidableEq S] [Fintype ι] [Fintype B] in
theorem calm_set (h : ∀ u k, s.tasks u ≠ .panicked k) {a' : Status ι W B S κ} (htasks : s'.tasks = update s.tasks t a')
    (ha' : ∀ k, a' ≠ .panicked k) (u : ι) (k : κ) : s'.tasks u ≠ .panicked k := by
  rw [htasks]
  by_cases hu : u = t
  · rw [hu, update_self]
    exact ha' k
  · rw [update_of_ne hu]
    exact h u k

omit [DecidableEq W] [DecidableEq B] [Fintype ι] [Fintype B] in
theorem calm_push (h : ∀ u k, s.tasks u ≠ .panicked k) (f u : ι) (k : κ) : (s.push sys f).tasks u ≠ .panicked k := by
  unfold State.push
  split
  · exact calm_set h rfl (fun _ heq => by cases heq) u k
  · exact h u k

theorem Inv.calm_step (h : Inv sys s) (hstep : Change sys s s') : ∀ u k, s'.tasks u ≠ .panicked k := by
  cases hstep with
  | access | list | block | park | unlist | unblock | parked | queue | pop | resume | take | uncount | unblocked
  | wakeParked | wakeParking => exact calm_set h.calm rfl fun _ heq => by cases heq
  | plain _ hplain => exact calm_set h.calm rfl fun _ heq => by cases heq; cases hplain
  | acquire _ hacquires => exact calm_set h.calm rfl fun _ heq => by cases heq; cases hacquires
  | release _ hreleases => exact calm_set h.calm rfl fun _ heq => by cases heq; cases hreleases
  | count _ hcounts =>
    exact calm_set h.calm (congrArg (update · _ _) (count_tasks s _ _)) fun _ heq => by cases heq; cases hcounts
  | missing ht htimed hseen hmissing => exact (h.threads.not_missing ht htimed hseen hmissing).elim
  | @notify t b fibers k ht =>
    have hcalm : ∀ u k, ({ s with tasks := fun u => (s.tasks u).notify sys b } : State ι M W B S κ).tasks u ≠ .panicked k := by
      intro u k hu
      cases hstatus : s.tasks u with
      | panicked k => exact h.calm u k hstatus
      | asleep c seen k =>
        simp only [hstatus, Status.notify] at hu
        split at hu <;> cases hu
      | _ =>
        simp only [hstatus, Status.notify] at hu
        cases hu
    exact calm_set hcalm rfl fun _ heq => by cases heq
  | wakeOther ht hstate => exact (h.fibers.not_other ht hstate).elim
  | push => exact calm_set (calm_push h.calm _) rfl fun _ heq => by cases heq

theorem Inv.step (h : Inv sys s) (hstep : s.Next sys s') : Inv sys s' :=
  have hchange := next_change hstep
  ⟨h.lock_step hchange, h.fibers_step hchange, h.threads_step hchange, h.counts_step hchange, h.calm_step hchange⟩

variable (h : s.Initial sys)
include h

omit [DecidableEq ι] [DecidableEq W] [DecidableEq B] [DecidableEq S] [Fintype ι] [Fintype B] in
theorem State.Initial.status (t : ι) :
    (∃ k, s.tasks t = .running k) ∧ sys.sched t = none ∨ (∃ k, s.tasks t = .queued k) ∧ sys.sched t ≠ none := by
  by_cases hsched : sys.sched t = none
  · exact .inl ⟨h.thread t hsched, hsched⟩
  · exact .inr ⟨h.fiber t hsched, hsched⟩

omit [DecidableEq ι] [DecidableEq W] [DecidableEq B] [DecidableEq S] [Fintype ι] [Fintype B] in
theorem State.Initial.attr {Y : Type} (g : Status ι W B S κ → Y) {y : Y} (hrunning : ∀ k, g (.running k) = y)
    (hqueued : ∀ k, g (.queued k) = y) (t : ι) : g (s.tasks t) = y := by
  rcases h.status t with ⟨⟨k, hk⟩, -⟩ | ⟨⟨k, hk⟩, -⟩
  · rw [hk, hrunning]
  · rw [hk, hqueued]

omit [DecidableEq W] [DecidableEq B] [DecidableEq S] in
theorem State.Initial.fibers : FibersInv sys s := by
  have hplaced : ∀ f, s.placed f = 0 := by
    simp [State.placed, h.buckets, Waiters.empty, h.attr (fun st => st.pending) (fun _ => rfl) fun _ => rfl]
  have hpushed : ∀ f, s.pushed f = 0 := by
    simp [State.pushed, h.attr (fun st => st.pushing) (fun _ => rfl) fun _ => rfl]
  refine ⟨fun b f w hf => ?_, fun f => ?_, fun q => ⟨(h.ready q).1, fun f => ?_⟩⟩
  · rw [h.buckets] at hf
    cases hf
  · rw [hplaced, hpushed]
    rcases h.status f with ⟨⟨k, hk⟩, -⟩ | ⟨⟨k, hk⟩, hsched⟩
    · rw [hk]
      exact .free rfl fun hother => absurd rfl hother
    · rw [hk]
      exact .free rfl fun _ => ne_none_iff_exists'.mp hsched
  · rw [(h.ready q).2 f]
    rcases h.status f with ⟨⟨k, hk⟩, hsched⟩ | ⟨⟨k, hk⟩, -⟩
    · simp [hk, hsched]
    · simp [hk, Status.stage]

omit [DecidableEq W] [Fintype B] in
theorem State.Initial.threads : ThreadsInv sys s := by
  have hon : ∀ b n t, (s.tasks t).onList sys b n = false :=
    fun b n => h.attr (fun st => st.onList sys b n) (fun _ => rfl) fun _ => rfl
  refine ⟨fun b => ?_, fun t b n ht => ?_, fun t b n ht => ?_⟩
  · rw [h.buckets]
    exact .cleared (hon b _) rfl rfl fun _ hmem => by cases hmem
  · rw [h.attr (fun st => st.saw sys) (fun _ => rfl) fun _ => rfl] at ht
    cases ht
  · rw [h.attr (fun st => st.sleeps sys) (fun _ => rfl) fun _ => rfl] at ht
    cases ht

omit [DecidableEq ι] [DecidableEq W] [DecidableEq B] in
theorem State.Initial.counts : CountsInv sys s := by
  refine ⟨?_, fun q => ?_⟩
  · rw [h.waiting, Finset.sum_eq_zero fun t _ => h.attr (fun st => st.owes sys t) (fun _ => rfl) (fun _ => rfl) t]
    simp [h.buckets, Waiters.empty]
  · rw [h.blocked, Finset.sum_eq_zero fun t _ => h.attr (fun st => st.owesBlocked sys q t) (fun _ => rfl) (fun _ => rfl) t]
    simp [h.buckets, Waiters.empty]

omit [DecidableEq W] in
theorem State.Initial.inv : Inv sys s := by
  refine ⟨fun t b => ?_, h.fibers, h.threads, h.counts, fun t k hk => ?_⟩
  · rw [h.attr (fun st => st.holds sys) (fun _ => rfl) fun _ => rfl, h.buckets]
    simp [Waiters.empty]
  · rcases h.status t with ⟨⟨k, hk'⟩, -⟩ | ⟨⟨k, hk'⟩, -⟩ <;> rw [hk'] at hk <;> cases hk

omit h

theorem Inv.reach (h : Inv sys s) (hrun : ReflTransGen (State.Next sys) s s') : Inv sys s' := by
  induction hrun with
  | refl => exact h
  | tail _ hstep ih => exact ih.step hstep

end Vx.Wait
