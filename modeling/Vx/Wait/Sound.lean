import Vx.Wait.Woken

namespace Vx.Wait

open Finset
open Function (update update_of_ne update_self)
open Relation (ReflTransGen)

variable {ι M W B S κ χ : Type} [DecidableEq ι] [DecidableEq W] [DecidableEq B] [DecidableEq S] [Fintype ι] [Fintype B]
  {sys : System ι M W B S κ χ} {s s' : State ι M W B S κ} {t f : ι}

def State.withWorker (s : State ι M W B S κ) (f : ι) : Bool :=
  match (s.tasks f).stage with
  | .other | .requeuing | .popped => true
  | .parking _ => s.fiber f = .woken
  | .parked _ | .queued => false

def State.taken (s : State ι M W B S κ) (f : ι) : ℕ := ∑ d, ((s.tasks d).pending.count f + (s.tasks d).pushing.count f)

def State.listed (s : State ι M W B S κ) (f : ι) : ℕ := ∑ b, ((s.buckets b).fibers.map Prod.fst).count f

omit [DecidableEq W] [DecidableEq B] [DecidableEq S] in
theorem placed_add_pushed (s : State ι M W B S κ) (f : ι) : s.placed f + s.pushed f = s.listed f + s.taken f := by
  simp only [State.placed, State.pushed, State.listed, State.taken, sum_add_distrib]
  omega

omit [DecidableEq B] [DecidableEq S] in
theorem FibersInv.count_ready (h : FibersInv sys s) {q : S} (hsched : sys.sched f = some q) :
    (s.ready q).count f = if (s.tasks f).stage = .queued then 1 else 0 := by
  by_cases hqueued : (s.tasks f).stage = .queued
  · rw [if_pos hqueued]
    exact List.count_eq_one_of_mem (h.ready q).1 (((h.ready q).2 f).mpr ⟨hsched, hqueued⟩)
  · rw [if_neg hqueued]
    exact List.count_eq_zero.mpr fun hmem => hqueued (((h.ready q).2 f).mp hmem).2

omit [DecidableEq B] [DecidableEq S] in
theorem FibersInv.one_place (h : FibersInv sys s) {q : S} (hsched : sys.sched f = some q) :
    (s.withWorker f).toNat + s.listed f + s.taken f + (s.ready q).count f = 1 := by
  have hsum := placed_add_pushed s f
  have hfiber := h.fiber f
  have honce := hfiber.once
  have hpushed := hfiber.pushed
  rw [h.count_ready hsched]
  unfold State.withWorker
  cases hstage : (s.tasks f).stage with
  | parking w =>
    rcases hfiber.parking w hstage with hstate | hstate <;>
      simp [hstage, hstate, Stage.word, Stage.isParked] at honce hpushed ⊢ <;> omega
  | parked w =>
    rcases hfiber.parked w hstage with hstate | hstate <;>
      simp [hstage, hstate, Stage.word, Stage.isParked] at honce hpushed ⊢ <;> omega
  | other | requeuing | queued | popped =>
    simp [hstage, Stage.word, Stage.isParked] at honce hpushed ⊢
    omega

omit [DecidableEq ι] [DecidableEq W] [DecidableEq B] [DecidableEq S] [Fintype ι] [Fintype B] in
theorem owes_of_free {st : Status ι W B S κ} (h : st.holds sys = none) : st.owes sys t = 0 := by
  cases st <;> first | rfl | cases h

omit [DecidableEq ι] [DecidableEq W] [DecidableEq B] [Fintype ι] [Fintype B] in
theorem owesBlocked_of_free {st : Status ι W B S κ} (h : st.holds sys = none) (q : S) : st.owesBlocked sys q t = 0 := by
  cases st <;> first | rfl | cases h

omit [DecidableEq W] in
theorem Inv.counts_free (h : Inv sys s) (hfree : ∀ b, (s.buckets b).held = none) :
    s.waiting = ∑ b, ((s.buckets b).sleepers.length : ℤ) ∧ ∀ q, s.blocked q = ∑ b, ((s.buckets b).blocked.count q : ℤ) := by
  have hholds : ∀ t, (s.tasks t).holds sys = none := by
    intro t
    cases hheld : (s.tasks t).holds sys with
    | none => rfl
    | some b =>
      have := (h.lock t b).mp hheld
      rw [hfree] at this
      cases this
  refine ⟨?_, fun q => ?_⟩
  · have := h.counts.waiting
    rwa [sum_eq_zero fun t _ => owes_of_free (hholds t), add_zero] at this
  · have := h.counts.blocked q
    rwa [sum_eq_zero fun t _ => owesBlocked_of_free (hholds t) q, add_zero] at this

section

def State.Testing (s : State ι M W B S κ) (t : ι) (word : W) (value : ℤ) : Prop :=
  ∃ c k, (s.tasks t = .locking c k ∨ s.tasks t = .testing c k) ∧ c.word = word ∧ c.value = value

variable {word : W} {k : κ}

omit [DecidableEq B] [DecidableEq S] [Fintype ι] [Fintype B] in
theorem testing_of_calling {value : ℤ} (h : (s.abs sys).tasks t = .calling word value k) : s.Testing t word value := by
  simp only [State.abs] at h
  cases hst : s.tasks t with
  | locking c k' =>
    rw [hst] at h
    cases h
    exact ⟨c, _, .inl hst, rfl, rfl⟩
  | testing c k' =>
    rw [hst] at h
    cases h
    exact ⟨c, _, .inr hst, rfl, rfl⟩
  | asleep c seen k' | parking c k' | switched c k' | parked c k' =>
    rw [hst, Status.phase] at h
    split at h <;> cases h
  | _ =>
    rw [hst] at h
    cases h

def TestedBetween (sys : System ι M W B S κ χ) (s s' : State ι M W B S κ) (t : ι) (word : W) (value : ℤ) : Prop :=
  ∃ r, ReflTransGen (State.Next sys) s r ∧ ReflTransGen (State.Next sys) r s' ∧ r.Testing t word value ∧
    sys.read r.mem word = value

theorem Inv.tested_since (h : Inv sys s) (hrun : ReflTransGen (State.Next sys) s s') {value : ℤ}
    (hbefore : ∀ value k, (s.abs sys).tasks t ≠ .asleep word value k) (ht : (s'.abs sys).tasks t = .asleep word value k) :
    TestedBetween sys s s' t word value := by
  induction hrun with
  | refl => exact (hbefore _ _ ht).elim
  | @tail s₁ s₂ hrun hstep ih =>
    rcases ((h.reach hrun).refines (next_change hstep)).asleep ht with hasleep | ⟨hcalling, hread⟩
    · obtain ⟨r, hr, hr', htest⟩ := ih hasleep
      exact ⟨r, hr, hr'.tail hstep, htest⟩
    · exact ⟨s₁, hrun, .single hstep, testing_of_calling hcalling, hread⟩

variable {d : ι} {b : B} {which : Fibers W}

theorem Inv.take_wakes (h : Inv sys s) (hd : s.tasks d = .wakeHolding b which k) (hword : word ∈ sys.words b which) (value : ℤ) (k' : κ) :
    ((s.stepHolding d b which k).abs sys).tasks t ≠ .asleep word value k' := by
  intro ht
  by_cases htd : t = d
  · subst htd
    simp only [State.abs, State.stepHolding, State.set, update_self, Status.phase] at ht
    cases ht
  · exact (h.taken hd htd).2 word value k' ht hword

def Status.BeforeTake (b : B) (which : Fibers W) (k : κ) (st : Status ι W B S κ) : Prop :=
  st = .wakeLocking b which k ∨ st = .wakeHolding b which k

omit [DecidableEq W] [DecidableEq B] [DecidableEq S] [Fintype ι] [Fintype B] in
theorem set_waker {a a' : Status ι W B S κ}
    (htasks : s'.tasks = update s.tasks t a') (ht : s.tasks t = a) (ha : a.BeforeTake b which k → a'.BeforeTake b which k)
    (hd : (s.tasks d).BeforeTake b which k) : (s'.tasks d).BeforeTake b which k := by
  rw [htasks]
  by_cases hdt : d = t
  · subst hdt
    rw [update_self]
    rw [ht] at hd
    exact ha hd
  · rwa [update_of_ne hdt]

omit [Fintype ι] [Fintype B] in
theorem Change.waker (h : Change sys s s') (hd : (s.tasks d).BeforeTake b which k) :
    (s'.tasks d).BeforeTake b which k ∨ s.tasks d = .wakeHolding b which k ∧ s' = s.stepHolding d b which k := by
  cases h with
  | access ht | list ht | block ht | park ht | unlist ht | unblock ht | missing ht | parked ht | queue ht | pop _ ht | resume ht
  | uncount ht | unblocked ht | wakeParked ht | wakeParking ht | wakeOther ht =>
    exact .inl (set_waker rfl ht (fun ha => by rcases ha with ha | ha <;> cases ha) hd)
  | plain ht hplain =>
    exact .inl (set_waker rfl ht (fun ha => by rcases ha with rfl | rfl <;> cases hplain) hd)
  | acquire ht hacquires =>
    refine .inl (set_waker rfl ht (fun ha => ?_) hd)
    rcases ha with rfl | rfl
    · cases hacquires
      exact .inr rfl
    · cases hacquires
  | release ht hreleases =>
    exact .inl (set_waker rfl ht (fun ha => by rcases ha with rfl | rfl <;> cases hreleases) hd)
  | count ht hcounts =>
    refine .inl (set_waker (congrArg (update · _ _) (count_tasks s _ _)) ht (fun ha => ?_) hd)
    rcases ha with rfl | rfl <;> cases hcounts
  | @take t b' which' k' ht =>
    by_cases hdt : d = t
    · subst hdt
      rw [ht] at hd
      rcases hd with hd | hd
      · cases hd
      · cases hd
        exact .inr ⟨ht, rfl⟩
    · have hsame : (s.stepHolding t b' which' k').tasks d = s.tasks d := update_of_ne hdt _ _
      exact .inl (by rwa [hsame])
  | @notify t b' fibers k' ht =>
    have hnotify : ((s.tasks d).notify sys b').BeforeTake b which k := by
      rcases hd with hd | hd <;> rw [hd]
      · exact .inl rfl
      · exact .inr rfl
    have ht' : (s.tasks t).notify sys b' = .wakeUnlocked b' fibers k' := by rw [ht]; rfl
    exact .inl (set_waker (s := { s with tasks := fun u => (s.tasks u).notify sys b' }) rfl ht'
      (fun ha => by rcases ha with ha | ha <;> cases ha) hnotify)
  | @push t f fibers k' ht =>
    have hpush : ((s.push sys f).tasks d).BeforeTake b which k := by
      unfold State.push
      split
      next hf => exact set_waker rfl hf (fun ha => by rcases ha with ha | ha <;> cases ha) hd
      next => exact hd
    exact .inl (set_waker rfl (push_other sys s ht) (fun ha => by rcases ha with ha | ha <;> cases ha) hpush)

omit [Fintype ι] [Fintype B] in
theorem took_of_finished (hrun : ReflTransGen (State.Next sys) s s')
    (hd : (s.tasks d).BeforeTake b which k) (hend : ¬ (s'.tasks d).BeforeTake b which k) :
    ∃ r, ReflTransGen (State.Next sys) s r ∧ r.tasks d = .wakeHolding b which k ∧
      State.Next sys r (r.stepHolding d b which k) ∧ ReflTransGen (State.Next sys) (r.stepHolding d b which k) s' := by
  induction hrun using ReflTransGen.head_induction_on with
  | refl => exact (hend hd).elim
  | @head s₁ s₂ hstep hrun ih =>
    rcases (next_change hstep).waker hd with hd' | ⟨hholding, rfl⟩
    · obtain ⟨r, hr, hrest⟩ := ih hd'
      exact ⟨r, hr.head hstep, hrest⟩
    · exact ⟨s₁, .refl, hholding, hstep, hrun⟩

theorem Inv.after_take (h : Inv sys s) (hd : s.tasks d = .wakeHolding b which k)
    (hstep : State.Next sys s (s.stepHolding d b which k))
    (hrun : ReflTransGen (State.Next sys) (s.stepHolding d b which k) s') {c : Call W} (ht : (s'.tasks t).sleeping = some c)
    (hword : c.word ∈ sys.words b which) :
    s'.Woken sys t ∨ TestedBetween sys (s.stepHolding d b which k) s' t c.word c.value := by
  have hinv := h.step hstep
  rcases (hinv.reach hrun).asleep_or_woken ht with hasleep | hwoken
  · exact .inr (hinv.tested_since hrun (fun value k' => h.take_wakes hd hword value k') hasleep)
  · exact .inl hwoken

end

def State.run (sys : System ι M W B S κ χ) (s : State ι M W B S κ) : List (Move ι S χ) → Option (State ι M W B S κ)
  | [] => some s
  | m :: ms => (s.step sys m).bind fun s => s.run sys ms

omit [Fintype ι] [Fintype B] in
theorem Change.wakes_le (h : Change sys s s') (b : B) : (s'.buckets b).wakes ≤ (s.buckets b).wakes + 1 := by
  cases h with
  | @count t n a a' ht hcounts => cases hsched : sys.sched t <;> simp [State.count, State.set, hsched]
  | @push t f fibers k ht =>
    unfold State.push
    split <;> simp [State.set]
  | @acquire t b' | @release t b' | @take t b' =>
    simp only [State.release, State.stepHolding, State.set, State.setBucket]
    by_cases hb : b = b'
    · subst hb
      simp
    · simp [update_of_ne hb]
  | @list t c | @block t c | @park t c | @unlist t c | @unblock t c =>
    simp only [State.set, State.setBucket]
    by_cases hb : b = sys.bucket c.word
    · subst hb
      simp
    · simp [update_of_ne hb]
  | _ => exact Nat.le_succ _

omit [DecidableEq W] in
theorem Inv.inTime (h : Inv sys s) (hlimit : sys.limit = 0 ∨ ∀ b, (s.buckets b).wakes < sys.limit) : s.InTime sys := by
  intro t c seen k ht _ heq
  rcases hlimit with hlimit | hlimit
  · simpa [hlimit] using heq
  · have hle : seen ≤ (s.buckets (sys.bucket c.word)).wakes := h.threads.saw t (sys.bucket c.word) seen (by rw [ht]; rfl)
    have hlt := hlimit (sys.bucket c.word)
    rwa [Nat.mod_eq_of_lt hlt, Nat.mod_eq_of_lt (by omega)] at heq

theorem Inv.run_reaches (h : Inv sys s) {ms : List (Move ι S χ)} (hrun : s.run sys ms = some s')
    (hlimit : sys.limit = 0 ∨ ∀ b, (s.buckets b).wakes + ms.length ≤ sys.limit) : ReflTransGen (State.Next sys) s s' := by
  induction ms generalizing s with
  | nil =>
    cases hrun
    exact .refl
  | cons m ms ih =>
    obtain ⟨r, hr, hrest⟩ := Option.bind_eq_some_iff.mp hrun
    simp only [List.length_cons] at hlimit
    have hnext : s.Next sys r := ⟨h.inTime (hlimit.imp_right fun hle b => by have := hle b; omega), m, hr⟩
    refine (ih (h.step hnext) hrest (hlimit.imp_right fun hle b => ?_)).head hnext
    have hwakes := (next_change hnext).wakes_le b
    have := hle b
    omega

/-- What the waits and wakes keep in every run in which no count of wakes comes round under a thread, for any programs
around them: each fiber is at one place, no `expect` and no `unreachable!` fails, and the counts are those of the lists but
for what the holder of a lock still has to count. When a wake of a word passed its locked part, then in each later state a
task that sleeps on the word is about to be told, or tested the word after that part. -/
theorem wait_wake_sound (sys : System ι M W B S κ χ) {s₀ s : State ι M W B S κ} (hinit : s₀.Initial sys)
    (hrun : ReflTransGen (State.Next sys) s₀ s) :
    (∀ f q, sys.sched f = some q → (s.withWorker f).toNat + s.listed f + s.taken f + (s.ready q).count f = 1 ∧
      ∀ q' ≠ q, f ∉ s.ready q') ∧
    (∀ t k, s.tasks t ≠ .panicked k) ∧
    (s.waiting + ∑ t, (s.tasks t).owes sys t = ∑ b, ((s.buckets b).sleepers.length : ℤ) ∧
      ∀ q, s.blocked q + ∑ t, (s.tasks t).owesBlocked sys q t = ∑ b, ((s.buckets b).blocked.count q : ℤ)) ∧
    ((∀ b, (s.buckets b).held = none) → s.waiting = ∑ b, ((s.buckets b).sleepers.length : ℤ) ∧
      ∀ q, s.blocked q = ∑ b, ((s.buckets b).blocked.count q : ℤ)) ∧
    ∀ d word k s', s.tasks d = .wakeLocking (sys.bucket word) (.of word) k → ReflTransGen (State.Next sys) s s' →
      ¬ (s'.tasks d).BeforeTake (sys.bucket word) (.of word) k →
      ∃ r, ReflTransGen (State.Next sys) s r ∧ ReflTransGen (State.Next sys) r s' ∧
        ∀ s'' t c, ReflTransGen (State.Next sys) s' s'' → (s''.tasks t).sleeping = some c → c.word = word →
          s''.Woken sys t ∨ TestedBetween sys r s'' t word c.value := by
  have hinv := hinit.inv.reach hrun
  refine ⟨fun f q hsched => ⟨hinv.fibers.one_place hsched, fun q' hq hmem => ?_⟩, hinv.calm,
    ⟨hinv.counts.waiting, hinv.counts.blocked⟩, hinv.counts_free, fun d word k s' hd hafter hend => ?_⟩
  · have hsched' := (((hinv.fibers.ready q').2 f).mp hmem).1
    rw [hsched] at hsched'
    exact hq (Option.some.inj hsched').symm
  · obtain ⟨r, hr, hholding, hstep, hrest⟩ := took_of_finished hafter (.inl hd) hend
    refine ⟨r.stepHolding d (sys.bucket word) (.of word) k, hr.tail hstep, hrest, fun s'' t c hlater ht hword => ?_⟩
    have hmem : c.word ∈ sys.words (sys.bucket word) (.of word) := by
      rw [hword]
      exact ⟨rfl, by simp [Fibers.takes]⟩
    have htold := (hinv.reach hr).after_take hholding hstep (hrest.trans hlater) ht hmem
    rwa [hword] at htold

instance neZeroTwo : NeZero 2 := ⟨by decide⟩

def pair : System (Fin 2) ℤ Unit Unit Unit ℕ Unit where
  limit := 2 ^ 64
  bucket := id
  read m _ := m
  sched t := if t = 0 then none else some ()
  act t k _ :=
    if t = 0 then (if k = 0 then some (.wait ⟨(), 0, false, false⟩ 1) else none)
    else if k = 0 then some (.access fun _ => (1, 1))
    else if k = 1 then some (.wake () (.of ()) 2)
    else none

def pairStart : State (Fin 2) ℤ Unit Unit Unit ℕ where
  mem := 0
  tasks t := if t = 0 then .running 0 else .queued 0
  buckets _ := .empty
  fiber _ := .running
  ready _ := [1]
  waiting := 0
  blocked _ := 0

theorem pairStart_initial : pairStart.Initial pair := by
  refine ⟨fun t ht => ?_, fun t ht => ?_, fun _ => rfl, fun _ => ⟨List.nodup_singleton 1, fun t => ?_⟩, rfl, fun _ => rfl⟩
  · match t with
    | 0 => exact ⟨0, rfl⟩
    | 1 => cases ht
  · match t with
    | 0 => exact (ht rfl).elim
    | 1 => exact ⟨0, rfl⟩
  · match t with
    | 0 => exact iff_of_false (by simp [pairStart]) (by simp [pair])
    | 1 => exact iff_of_true (by simp [pairStart]) rfl

def pairMoves : List (Move (Fin 2) Unit Unit) :=
  let input : Input := ⟨false, false, false, false⟩
  [.client 0 (), .step 0 input, .step 0 input, .step 0 input, .step 0 input, .step 0 input, .pop () 0, .step 1 input,
    .client 1 (), .client 1 ()]

theorem wait_wake_sound_pair : ∃ s, pairStart.run pair pairMoves = some s ∧ s.tasks 0 = .asleep ⟨(), 0, false, false⟩ 0 1 ∧
    s.tasks 1 = .wakeLocking () (.of ()) 2 ∧ (∀ t k, s.tasks t ≠ .panicked k) ∧
    (s.withWorker 1).toNat + s.listed 1 + s.taken 1 + (s.ready ()).count 1 = 1 := by
  obtain ⟨s, hs, hasleep, hwaking⟩ : ∃ s, pairStart.run pair pairMoves = some s ∧
      s.tasks 0 = .asleep ⟨(), 0, false, false⟩ 0 1 ∧ s.tasks 1 = .wakeLocking () (.of ()) 2 := ⟨_, rfl, rfl, rfl⟩
  obtain ⟨hplaces, hcalm, -⟩ := wait_wake_sound pair pairStart_initial
    (pairStart_initial.inv.run_reaches hs (.inr fun _ => show 0 + 10 ≤ 2 ^ 64 by decide))
  exact ⟨s, hs, hasleep, hwaking, hcalm, (hplaces 1 () rfl).1⟩

def lapping : System (Fin 2) Unit Unit Unit Unit Unit Unit where
  limit := 2 ^ 64
  bucket := id
  read _ _ := 0
  sched _ := none
  act t _ _ := if t = 0 then some (.wait ⟨(), 0, false, false⟩ ()) else some (.wake () .none ())

def lappingStart : State (Fin 2) Unit Unit Unit Unit Unit where
  mem := ()
  tasks _ := .running ()
  buckets _ := .empty
  fiber _ := .running
  ready _ := []
  waiting := 0
  blocked _ := 0

/-- The first thread is out of its sleep and has not got the lock again, and there were `n` wakes since it slept. -/
def lap (n : ℕ) : State (Fin 2) Unit Unit Unit Unit Unit where
  mem := ()
  tasks t := if t = 0 then .roused ⟨(), 0, false, false⟩ 0 () else .running ()
  buckets _ := { Waiters.empty with wakes := n }
  fiber _ := .running
  ready _ := []
  waiting := 0
  blocked _ := 0

def lapMoves : List (Move (Fin 2) Unit Unit) :=
  .client 1 () :: List.replicate 6 (.step 1 ⟨false, false, false, false⟩)

theorem eq_lap {n : ℕ} {s : State (Fin 2) Unit Unit Unit Unit Unit} (hfirst : s.tasks 0 = (lap n).tasks 0)
    (hsecond : s.tasks 1 = (lap n).tasks 1) (hrest : { s with tasks := (lap n).tasks } = lap n) : s = lap n := by
  have htasks : s.tasks = (lap n).tasks := funext (Fin.forall_fin_two.mpr ⟨hfirst, hsecond⟩)
  rw [← hrest, ← htasks]

theorem lap_run (n : ℕ) : (lap n).run lapping lapMoves = some (lap (n + 1)) :=
  congrArg some (eq_lap rfl rfl rfl)

omit [Fintype ι] [Fintype B] in
theorem run_steps {ms : List (Move ι S χ)} (h : s.run sys ms = some s') : ReflTransGen (State.Step sys) s s' := by
  induction ms generalizing s with
  | nil =>
    cases h
    exact .refl
  | cons m ms ih =>
    obtain ⟨r, hr, hrest⟩ := Option.bind_eq_some_iff.mp h
    exact (ih hrest).head ⟨m, hr⟩

theorem lap_reaches (n : ℕ) : ReflTransGen (State.Step lapping) (lap 1) (lap (n + 1)) := by
  induction n with
  | zero => exact .refl
  | succ n ih => exact ih.trans (run_steps (lap_run (n + 1)))

/-- The thread sleeps, comes out of its sleep, and is slow to take the lock. -/
def lappingMoves : List (Move (Fin 2) Unit Unit) :=
  .client 0 () :: List.replicate 5 (.step 0 ⟨false, false, false, false⟩) ++ .rouse 0 :: lapMoves

theorem lappingStart_run : lappingStart.run lapping lappingMoves = some (lap 1) :=
  congrArg some (eq_lap rfl rfl rfl)

/-- After `2 ^ 64` wakes the word shows the count that the thread saw, and the thread looks for its note in vain. -/
theorem lapping_panics : lappingStart.Initial lapping ∧
    ∃ s, ReflTransGen (State.Step lapping) lappingStart s ∧ s.tasks 0 = .panicked () := by
  refine ⟨⟨fun _ _ => ⟨(), rfl⟩, fun _ h => (h rfl).elim, fun _ => rfl, fun _ => ⟨List.nodup_nil, fun _ => ?_⟩, rfl,
    fun _ => rfl⟩, ?_⟩
  · simp [lappingStart, lapping]
  · have hlast : ∃ s, (lap (2 ^ 64)).run lapping (List.replicate 2 (.step 0 ⟨false, false, false, false⟩)) = some s ∧
        s.tasks 0 = .panicked () := ⟨_, rfl, rfl⟩
    obtain ⟨s, hrun, hs⟩ := hlast
    exact ⟨s, ((run_steps lappingStart_run).trans (lap_reaches (2 ^ 64 - 1))).trans (run_steps hrun), hs⟩

end Vx.Wait
