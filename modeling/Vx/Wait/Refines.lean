import Vx.Wait.Counts

namespace Vx.Wait

open List
open Function (update update_of_ne update_self)
open Relation (ReflTransGen)
open Lib.Parking (Phase Program)

variable {ι M W B S κ χ : Type} [DecidableEq ι] [DecidableEq W] [DecidableEq B] [DecidableEq S] [Fintype ι] [Fintype B]

def System.words (sys : System ι M W B S κ χ) (b : B) (which : Fibers W) : Set W :=
  {w | sys.bucket w = b ∧ which.takes w = true}

def Status.phase (sys : System ι M W B S κ χ) (buckets : B → Waiters ι W S) (t : ι) : Status ι W B S κ → Phase W ℤ κ
  | .locking c k | .testing c k => .calling c.word c.value k
  | .tested c k | .listed c k | .counted c k => .asleep c.word c.value k
  | .asleep c seen k =>
    if seen = (buckets (sys.bucket c.word)).wakes then .asleep c.word c.value k else .running k
  | .parking c k | .switched c k | .parked c k =>
    if (t, c.word) ∈ (buckets (sys.bucket c.word)).fibers then .asleep c.word c.value k else .running k
  | .wakeLocking b which k | .wakeHolding b which k => .waking (sys.words b which) k
  | .running k | .returning _ k | .roused _ _ k | .relocked _ _ k | .unlisted _ k | .requeuing k | .queued k | .popped k
  | .wakeCounting _ _ _ _ k | .wakeUnblocking _ _ _ k | .wakeUnlocked _ _ k | .wakeFibers _ k | .wakePushing _ _ k
  | .panicked k => .running k

def Status.cont : Status ι W B S κ → κ
  | .running k | .locking _ k | .testing _ k | .tested _ k | .returning _ k | .listed _ k | .counted _ k | .asleep _ _ k
  | .roused _ _ k | .relocked _ _ k | .unlisted _ k | .parking _ k | .switched _ k | .parked _ k | .requeuing k | .queued k
  | .popped k | .wakeLocking _ _ k | .wakeHolding _ _ k | .wakeCounting _ _ _ _ k | .wakeUnblocking _ _ _ k
  | .wakeUnlocked _ _ k | .wakeFibers _ k | .wakePushing _ _ k | .panicked k => k

def State.abs (sys : System ι M W B S κ χ) (s : State ι M W B S κ) : Lib.Parking.State ι M W ℤ κ :=
  ⟨s.mem, fun t => (s.tasks t).phase sys s.buckets t⟩

inductive System.Does (sys : System ι M W B S κ χ) (t : ι) (k : κ) : Lib.Parking.Act M W ℤ κ → Prop
  | access {x : χ} {f : M → M × κ} (h : sys.act t k x = some (.access f)) : sys.Does t k (.access f)
  | wait {x : χ} {c : Call W} {k' : κ} (h : sys.act t k x = some (.wait c k')) : sys.Does t k (.wait c.word c.value k')
  | wake {x : χ} {b : B} {which : Fibers W} {k' : κ} (h : sys.act t k x = some (.wake b which k')) :
      sys.Does t k (.wake (sys.words b which) k')

def System.program (sys : System ι M W B S κ χ) : Program ι M W ℤ κ := ⟨sys.read, sys.Does⟩

variable {sys : System ι M W B S κ χ} {s s' : State ι M W B S κ} {t : ι}

section

omit [DecidableEq B] [DecidableEq S] [Fintype ι] [Fintype B] in
theorem cont_phase (sys : System ι M W B S κ χ) (st : Status ι W B S κ) (buckets : B → Waiters ι W S) (u : ι) :
    (st.phase sys buckets u).cont = st.cont := by
  cases st with
  | asleep c seen k | parking c k | switched c k | parked c k =>
    rw [Status.phase]
    split <;> rfl
  | _ => rfl

omit [DecidableEq B] [DecidableEq S] [Fintype ι] [Fintype B] in
theorem phase_congr {buckets buckets' : B → Waiters ι W S} {u : ι} (hwakes : ∀ b, (buckets' b).wakes = (buckets b).wakes)
    (hlists : ∀ b w, (u, w) ∈ (buckets' b).fibers ↔ (u, w) ∈ (buckets b).fibers) (st : Status ι W B S κ) :
    st.phase sys buckets' u = st.phase sys buckets u := by
  cases st <;> simp only [Status.phase, hwakes, hlists]

structure Tame (s s' : State ι M W B S κ) (t : ι) (a' : Status ι W B S κ) : Prop where
  tasks : s'.tasks = update s.tasks t a'
  wakes : ∀ b, (s'.buckets b).wakes = (s.buckets b).wakes
  lists : ∀ b w, ∀ u ≠ t, (u, w) ∈ (s'.buckets b).fibers ↔ (u, w) ∈ (s.buckets b).fibers

variable {a' : Status ι W B S κ}

omit [DecidableEq B] [DecidableEq S] [Fintype ι] [Fintype B] in
theorem Tame.abs (h : Tame s s' t a') :
    s'.abs sys = ⟨s'.mem, update (s.abs sys).tasks t (a'.phase sys s'.buckets t)⟩ := by
  rw [State.abs, State.abs]
  congr
  funext u
  by_cases hu : u = t
  · subst hu
    rw [h.tasks, update_self, update_self]
  · rw [h.tasks, update_of_ne hu, update_of_ne hu]
    exact phase_congr h.wakes (fun b w => h.lists b w u hu) _

omit [DecidableEq W] [DecidableEq B] [DecidableEq S] [Fintype ι] [Fintype B] in
theorem Tame.same (htasks : s'.tasks = update s.tasks t a') (hbuckets : s'.buckets = s.buckets) :
    Tame s s' t a' := ⟨htasks, fun b => by rw [hbuckets], fun b w u _ => by rw [hbuckets]⟩

omit [DecidableEq W] [DecidableEq S] [Fintype ι] [Fintype B] in
theorem Tame.bucket {b : B} {w : Waiters ι W S} (htasks : s'.tasks = update s.tasks t a')
    (hbuckets : s'.buckets = update s.buckets b w) (hwakes : w.wakes = (s.buckets b).wakes)
    (hlists : w.fibers = (s.buckets b).fibers) : Tame s s' t a' := by
  refine ⟨htasks, fun b' => ?_, fun b' w' u _ => ?_⟩
  · rw [hbuckets]
    exact attr_update (fun _ (w : Waiters ι W S) => w.wakes) hwakes b'
  · rw [hbuckets, lists_update hlists]

omit [DecidableEq B] [DecidableEq S] [Fintype ι] [Fintype B] in
theorem Tame.leave (h : Tame s s' t a') (hmem : s'.mem = s.mem)
    (hleft : ((s.tasks t).phase sys s.buckets t).Left (a'.phase sys s'.buckets t)) :
    Lib.Parking.Step sys.program (s.abs sys) (s'.abs sys) := by
  refine .leave hmem fun u => ?_
  rw [h.abs]
  by_cases hu : u = t
  · subst hu
    dsimp only
    rw [update_self]
    exact hleft
  · dsimp only
    rw [update_of_ne hu]
    exact .refl _

omit [DecidableEq W] in
theorem left_ite {p : Prop} [Decidable p] {word : W} {value : ℤ} {k : κ} :
    (if p then Phase.asleep word value k else .running k).Left (.running k) := by
  split
  · exact .inr ⟨word, value, k, rfl, rfl⟩
  · exact .refl _

end

omit [DecidableEq B] [DecidableEq S] [Fintype ι] [Fintype B] in
theorem Plain.refines {a a' : Status ι W B S κ} (ht : s.tasks t = a) (hplain : Plain sys s t a a') :
    Lib.Parking.Step sys.program (s.abs sys) ((s.set t a').abs sys) := by
  have htame : Tame s (s.set t a') t a' := .same rfl rfl
  have htask : (s.abs sys).tasks t = a.phase sys s.buckets t := by rw [← ht]; rfl
  cases hplain with
  | call hact =>
    rw [htame.abs]
    exact .call htask (.wait hact)
  | start hact =>
    rw [htame.abs]
    exact .start htask (.wake hact)
  | refuse =>
    rw [htame.abs]
    exact .back htask
  | pass hword =>
    rw [htame.abs]
    exact .sleep htask hword
  | late => exact htame.leave rfl (by rw [ht]; exact .inr ⟨_, _, _, rfl, rfl⟩)
  | rouse | requeue => exact htame.leave rfl (by rw [ht]; exact left_ite)
  | wasWoken | switch | done => exact htame.leave rfl (by rw [ht]; exact .refl _)

variable {b : B}

omit [DecidableEq S] [Fintype ι] [Fintype B] in
theorem Releases.refines {a a' : Status ι W B S κ} (ht : s.tasks t = a) (hreleases : Releases sys s b a a') :
    Lib.Parking.Step sys.program (s.abs sys) (((s.release b).set t a').abs sys) := by
  have htame : Tame s ((s.release b).set t a') t a' := .bucket rfl rfl rfl rfl
  refine htame.leave rfl ?_
  rw [ht]
  cases hreleases with
  | back | unlock => exact .refl _
  | host => exact .inr ⟨_, _, _, rfl, rfl⟩
  | @doze c k | @sleep c k =>
    simp only [Status.phase, htame.wakes, if_true]
    exact .refl _

variable {k : κ}

omit [DecidableEq S] [Fintype ι] [Fintype B] in
theorem park_refines {c : Call W} (ht : s.tasks t = .tested c k) {w : Waiters ι W S} (hmem : s'.mem = s.mem)
    (htasks : s'.tasks = update s.tasks t (.parking c k)) (hbuckets : s'.buckets = update s.buckets (sys.bucket c.word) w)
    (hfibers : w.fibers = (s.buckets (sys.bucket c.word)).fibers ++ [(t, c.word)])
    (hwakes : w.wakes = (s.buckets (sys.bucket c.word)).wakes) :
    Lib.Parking.Step sys.program (s.abs sys) (s'.abs sys) := by
  have htame : Tame s s' t (.parking c k) := by
    refine ⟨htasks, fun b => ?_, fun b word u hu => ?_⟩
    · rw [hbuckets]
      exact attr_update (fun _ (w : Waiters ι W S) => w.wakes) hwakes b
    rw [hbuckets]
    by_cases hb : b = sys.bucket c.word
    · subst hb
      rw [update_self, hfibers, mem_append, List.mem_singleton, Prod.mk.injEq]
      simp [hu]
    · rw [update_of_ne hb]
  refine htame.leave hmem ?_
  have hlisted : (t, c.word) ∈ (s'.buckets (sys.bucket c.word)).fibers := by
    rw [hbuckets, update_self, hfibers]
    exact mem_append_right _ mem_cons_self
  rw [ht, Status.phase, Status.phase, if_pos hlisted]
  exact .refl _

theorem Inv.taken (h : Inv sys s) {which : Fibers W} (ht : s.tasks t = .wakeHolding b which k) {u : ι} (hu : u ≠ t) :
    (((s.abs sys).tasks u).Left (((s.stepHolding t b which k).abs sys).tasks u)) ∧
      ∀ word value k', ((s.stepHolding t b which k).abs sys).tasks u = .asleep word value k' → word ∉ sys.words b which := by
  have htasks : (s.stepHolding t b which k).tasks u = s.tasks u := update_of_ne hu _ _
  have hbuckets : (s.stepHolding t b which k).buckets = update s.buckets b _ := rfl
  have hholds : (s.tasks u).holds sys ≠ some b := by
    intro hholds
    have ht' := (h.lock t b).mp (by rw [ht]; rfl)
    exact hu (Option.some.inj (((h.lock u b).mp hholds).symm.trans ht'))
  have hsaw := h.threads.saw u b
  simp only [State.abs, htasks]
  cases hstatus : s.tasks u with
  | tested c k' | listed c k' | counted c k' =>
    refine ⟨.refl _, fun word value k'' hword hmem => ?_⟩
    cases hword
    rw [hstatus] at hholds
    exact hholds (congrArg some hmem.1)
  | asleep c seen k' =>
    by_cases hb : sys.bucket c.word = b
    · have hle := hsaw seen (by rw [hstatus, ← hb]; rfl)
      have hawake : (Status.asleep c seen k' : Status ι W B S κ).phase sys (s.stepHolding t b which k).buckets u =
          .running k' := by
        rw [Status.phase, hbuckets, hb, update_self, if_neg]
        dsimp only
        omega
      rw [hawake]
      exact ⟨left_ite, fun word value k'' hword => by cases hword⟩
    · simp only [Status.phase, hbuckets, update_of_ne hb]
      refine ⟨.refl _, fun word value k'' hword hmem => ?_⟩
      split at hword
      · cases hword
        exact hb hmem.1
      · cases hword
  | parking c k' | switched c k' | parked c k' =>
    by_cases hb : sys.bucket c.word = b
    · simp only [Status.phase, hbuckets, hb, update_self, mem_filter]
      by_cases hmem : (u, c.word) ∈ (s.buckets b).fibers ∧ (!which.takes c.word) = true
      · rw [if_pos hmem, if_pos hmem.1]
        refine ⟨.refl _, fun word value k'' hword hin => ?_⟩
        cases hword
        rw [hin.2] at hmem
        simp at hmem
      · rw [if_neg hmem]
        exact ⟨left_ite, fun word value k'' hword => by cases hword⟩
    · simp only [Status.phase, hbuckets, update_of_ne hb]
      refine ⟨.refl _, fun word value k'' hword hmem => ?_⟩
      split at hword
      · cases hword
        exact hb hmem.1
      · cases hword
  | _ => exact ⟨.refl _, fun word value k'' hword => by cases hword⟩

theorem Inv.take_refines (h : Inv sys s) {which : Fibers W} (ht : s.tasks t = .wakeHolding b which k) :
    Lib.Parking.Step sys.program (s.abs sys) ((s.stepHolding t b which k).abs sys) := by
  have htask : (s.abs sys).tasks t = .waking (sys.words b which) k := by
    simp only [State.abs, ht, Status.phase]
  have htask' : ((s.stepHolding t b which k).abs sys).tasks t = .running k := by
    simp only [State.abs, State.stepHolding, State.set, update_self, Status.phase]
  refine .wake htask rfl htask' (fun u hu => (h.taken ht hu).1) fun u word value k' hword => ?_
  by_cases hu : u = t
  · rw [hu, htask'] at hword
    cases hword
  · exact (h.taken ht hu).2 word value k' hword

omit [DecidableEq S] [Fintype ι] [Fintype B] in
theorem notify_refines {fibers : List ι} (ht : s.tasks t = .wakeUnlocked b fibers k) :
    Lib.Parking.Step sys.program (s.abs sys)
      (State.abs sys { s with tasks := update (fun u => (s.tasks u).notify sys b) t (.wakeFibers fibers k) }) := by
  refine .leave rfl fun u => ?_
  simp only [State.abs]
  by_cases hu : u = t
  · subst hu
    rw [update_self, ht]
    exact .refl _
  · rw [update_of_ne hu]
    cases s.tasks u with
    | asleep c seen k =>
      rw [Status.notify]
      split
      · exact left_ite
      · exact .refl _
    | _ => exact .refl _

omit [DecidableEq B] [Fintype ι] [Fintype B] in
theorem push_refines {f : ι} {fibers : List ι} (ht : s.tasks t = .wakePushing f fibers k) :
    Lib.Parking.Step sys.program (s.abs sys) (((s.push sys f).set t (.wakeFibers fibers k)).abs sys) := by
  refine .leave ?_ fun u => ?_
  · simp only [State.abs, State.set, State.push]
    split <;> rfl
  simp only [State.abs, State.set, push_buckets]
  by_cases hu : u = t
  · subst hu
    rw [update_self, ht]
    exact .refl _
  · rw [update_of_ne hu]
    unfold State.push
    split
    next hf =>
      by_cases huf : u = f
      · subst huf
        simp only [State.set, update_self, hf]
        exact left_ite
      · simp only [State.set, update_of_ne huf]
        exact .refl _
    next => exact .refl _

omit [DecidableEq ι] [DecidableEq W] [DecidableEq B] [Fintype ι] [Fintype B] in
@[simp] theorem count_mem (s : State ι M W B S κ) (t : ι) (n : ℤ) : (s.count sys t n).mem = s.mem := by
  unfold State.count
  split <;> rfl

theorem Inv.refines (h : Inv sys s) (hstep : Change sys s s') : Lib.Parking.Step sys.program (s.abs sys) (s'.abs sys) := by
  cases hstep with
  | @access t k x f ht hact =>
    have htame : Tame s { s.set t (.running (f s.mem).2) with mem := (f s.mem).1 } t (.running (f s.mem).2) := .same rfl rfl
    rw [htame.abs]
    refine .access (s := s.abs sys) (f := f) (k := k) ?_ (.access hact)
    simp only [State.abs, ht, Status.phase]
  | plain ht hplain => exact hplain.refines ht
  | acquire ht hacquires =>
    refine Tame.leave (.bucket rfl rfl rfl rfl) rfl ?_
    rw [ht]
    cases hacquires <;> exact .refl _
  | release ht hreleases => exact hreleases.refines ht
  | list ht | block ht | unlist ht | unblock ht =>
    exact Tame.leave (.bucket rfl rfl rfl rfl) rfl (by rw [ht]; exact .refl _)
  | park ht => exact park_refines ht rfl rfl rfl rfl rfl
  | count ht hcounts =>
    refine Tame.leave (.same (congrArg (update · _ _) (count_tasks s _ _)) (count_buckets s _ _)) (count_mem s _ _) ?_
    rw [ht]
    cases hcounts <;> exact .refl _
  | missing ht htimed hseen hmissing => exact (h.threads.not_missing ht htimed hseen hmissing).elim
  | parked ht | queue ht | pop _ ht | resume ht | uncount ht | unblocked ht | wakeParked ht | wakeParking ht =>
    exact Tame.leave (.same rfl rfl) rfl (by rw [ht]; exact .refl _)
  | take ht => exact h.take_refines ht
  | notify ht => exact notify_refines ht
  | wakeOther ht hstate => exact (h.fibers.not_other ht hstate).elim
  | push ht => exact push_refines ht

theorem State.Initial.reaches {s₀ : State ι M W B S κ} (hinit : s₀.Initial sys) (hrun : ReflTransGen (State.Next sys) s₀ s) :
    Lib.Parking.Reaches sys.program (s₀.abs sys) (s.abs sys) := by
  induction hrun with
  | refl => exact .refl
  | tail hrun hstep ih => exact ih.tail ((hinit.inv.reach hrun).refines (next_change hstep))

end Vx.Wait
