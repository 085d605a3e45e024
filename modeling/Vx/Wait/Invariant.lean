import Vx.Wait.Steps

namespace Vx.Wait

open Finset
open Function (update update_of_ne update_self)

variable {ι M W B S κ χ : Type} [DecidableEq ι] [DecidableEq W] [DecidableEq B] [DecidableEq S]

def Status.holds (sys : System ι M W B S κ χ) : Status ι W B S κ → Option B
  | .testing c _ | .tested c _ | .returning c _ | .listed c _ | .counted c _ | .relocked c _ _ | .unlisted c _ =>
    some (sys.bucket c.word)
  | .wakeHolding b .. | .wakeCounting b .. | .wakeUnblocking b .. => some b
  | _ => none

inductive Stage (W : Type)
  | other
  | parking (word : W)
  | parked (word : W)
  | requeuing
  | queued
  | popped
deriving DecidableEq

def Stage.word : Stage W → Option W
  | .parking word | .parked word => some word
  | _ => none

def Stage.isParked : Stage W → Bool
  | .parked _ => true
  | _ => false

def Status.stage : Status ι W B S κ → Stage W
  | .parking c _ | .switched c _ => .parking c.word
  | .parked c _ => .parked c.word
  | .requeuing _ => .requeuing
  | .queued _ => .queued
  | .popped _ => .popped
  | _ => .other

def Status.pending : Status ι W B S κ → List ι
  | .wakeCounting _ fibers _ _ _ | .wakeUnblocking _ fibers _ _ | .wakeUnlocked _ fibers _ | .wakeFibers fibers _
  | .wakePushing _ fibers _ => fibers
  | _ => []

def Status.pushing : Status ι W B S κ → List ι
  | .wakePushing f _ _ => [f]
  | _ => []

def Status.onList (sys : System ι M W B S κ χ) (b : B) (wakes : ℕ) : Status ι W B S κ → Bool
  | .listed c _ | .counted c _ => !c.timed && sys.bucket c.word = b
  | .asleep c seen _ | .roused c seen _ | .relocked c seen _ => !c.timed && sys.bucket c.word = b && seen = wakes
  | _ => false

def Status.saw (sys : System ι M W B S κ χ) : Status ι W B S κ → Option (B × ℕ)
  | .asleep c seen _ | .roused c seen _ | .relocked c seen _ => some (sys.bucket c.word, seen)
  | _ => none

def Status.sleeps (sys : System ι M W B S κ χ) : Status ι W B S κ → Option (B × ℕ)
  | .asleep c seen _ => some (sys.bucket c.word, seen)
  | _ => none

def Status.notifies : Status ι W B S κ → Option B
  | .wakeCounting b .. | .wakeUnblocking b .. | .wakeUnlocked b .. => some b
  | _ => none

def Status.owes (sys : System ι M W B S κ χ) (t : ι) : Status ι W B S κ → ℤ
  | .listed _ _ => if sys.sched t = none then 1 else 0
  | .unlisted _ _ => if sys.sched t = none then -1 else 0
  | .wakeCounting _ _ n _ _ => -n
  | _ => 0

def Status.owesBlocked (sys : System ι M W B S κ χ) (q : S) (t : ι) : Status ι W B S κ → ℤ
  | .listed _ _ => if sys.sched t = some q then 1 else 0
  | .unlisted _ _ => if sys.sched t = some q then -1 else 0
  | .wakeCounting _ _ _ blocked _ | .wakeUnblocking _ _ blocked _ => -(blocked.count q : ℤ)
  | _ => 0

section
variable [Fintype ι] [Fintype B]

def State.placed (s : State ι M W B S κ) (f : ι) : ℕ :=
  ∑ b, ((s.buckets b).fibers.map Prod.fst).count f + ∑ d, (s.tasks d).pending.count f

def State.pushed (s : State ι M W B S κ) (f : ι) : ℕ := ∑ d, (s.tasks d).pushing.count f

structure FiberInv (sched : Option S) (stage : Stage W) (state : FiberState) (placed pushed : ℕ) : Prop where
  once : placed = if stage.word.isSome = true ∧ state ≠ .woken then 1 else 0
  pushed : pushed = if stage.isParked = true ∧ state = .woken then 1 else 0
  parking : ∀ w, stage = .parking w → state = .parking ∨ state = .woken
  parked : ∀ w, stage = .parked w → state = .parked ∨ state = .woken
  sched : stage ≠ .other → ∃ q, sched = some q

structure FibersInv (sys : System ι M W B S κ χ) (s : State ι M W B S κ) : Prop where
  listed : ∀ b f w, (f, w) ∈ (s.buckets b).fibers → (s.tasks f).stage.word = some w ∧ sys.bucket w = b
  fiber : ∀ f, FiberInv (sys.sched f) (s.tasks f).stage (s.fiber f) (s.placed f) (s.pushed f)
  ready : ∀ q, (s.ready q).Nodup ∧ ∀ f, f ∈ s.ready q ↔ sys.sched f = some q ∧ (s.tasks f).stage = .queued

structure ListsInv (sys : System ι M W B S κ χ) (tasks : ι → Status ι W B S κ) (b : B) (w : Waiters ι W S) : Prop where
  sleepers : ∀ t, w.sleepers.count t = if sys.sched t = none ∧ (tasks t).onList sys b w.wakes = true then 1 else 0
  blocked : ∀ q, w.blocked.count q =
    ∑ t, if sys.sched t = some q ∧ (tasks t).onList sys b w.wakes = true then 1 else 0
  notes : ∀ t, w.notes.count (.thread t) = if (tasks t).onList sys b w.wakes = true then 1 else 0

structure ThreadsInv (sys : System ι M W B S κ χ) (s : State ι M W B S κ) : Prop where
  lists : ∀ b, ListsInv sys s.tasks b (s.buckets b)
  saw : ∀ t b n, (s.tasks t).saw sys = some (b, n) → n ≤ (s.buckets b).wakes
  notified : ∀ t b n, (s.tasks t).sleeps sys = some (b, n) → n ≠ (s.buckets b).wakes → ∃ d, (s.tasks d).notifies = some b

structure CountsInv (sys : System ι M W B S κ χ) (s : State ι M W B S κ) : Prop where
  waiting : s.waiting + ∑ t, (s.tasks t).owes sys t = ∑ b, ((s.buckets b).sleepers.length : ℤ)
  blocked : ∀ q, s.blocked q + ∑ t, (s.tasks t).owesBlocked sys q t = ∑ b, ((s.buckets b).blocked.count q : ℤ)

def Locked (sys : System ι M W B S κ χ) (s : State ι M W B S κ) : Prop :=
  ∀ t b, (s.tasks t).holds sys = some b ↔ (s.buckets b).held = some t

structure Inv (sys : System ι M W B S κ χ) (s : State ι M W B S κ) : Prop where
  lock : Locked sys s
  fibers : FibersInv sys s
  threads : ThreadsInv sys s
  counts : CountsInv sys s
  calm : ∀ t k, s.tasks t ≠ .panicked k

theorem sum_update {α X β : Type} [Fintype α] [DecidableEq α] [AddCommMonoid β] (g : α → X → β) (f : α → X) (t : α)
    (x : X) : ∑ u, g u (update f t x u) + g t (f t) = ∑ u, g u (f u) + g t x := by
  rw [← add_sum_erase _ _ (mem_univ t), ← add_sum_erase _ (fun u => g u (f u)) (mem_univ t)]
  have hrest : ∑ u ∈ Finset.univ.erase t, g u (update f t x u) = ∑ u ∈ Finset.univ.erase t, g u (f u) := by
    refine sum_congr rfl fun u hu => ?_
    rw [update_of_ne (ne_of_mem_erase hu)]
  rw [hrest, update_self]
  abel

theorem attr_update {α X Y : Type} [DecidableEq α] (g : α → X → Y) {f : α → X} {t : α} {x : X} (h : g t x = g t (f t))
    (u : α) : g u (update f t x u) = g u (f u) := by
  by_cases hu : u = t
  · subst hu
    rw [update_self, h]
  · rw [update_of_ne hu]

end

section
variable [Fintype ι] [Fintype B] {sys : System ι M W B S κ χ} {s : State ι M W B S κ} {k : κ}

omit [DecidableEq ι] [DecidableEq W] [DecidableEq S] [Fintype ι] [Fintype B] in
theorem onList_relocked {c : Call W} {seen : ℕ} (htimed : c.timed = false) :
    (Status.relocked c seen k : Status ι W B S κ).onList sys (sys.bucket c.word) seen = true := by
  simp [Status.onList, htimed]

variable {t : ι}

omit [DecidableEq W] [Fintype B] in
theorem ThreadsInv.present (h : ThreadsInv sys s) {b : B}
    (hlist : (s.tasks t).onList sys b (s.buckets b).wakes = true) :
    .thread t ∈ (s.buckets b).notes ∧ (sys.sched t = none → t ∈ (s.buckets b).sleepers) ∧
      ∀ q, sys.sched t = some q → q ∈ (s.buckets b).blocked := by
  have hnote := (h.lists b).notes t
  rw [if_pos hlist] at hnote
  refine ⟨List.count_pos_iff.mp (by omega), fun hsched => ?_, fun q hsched => ?_⟩
  · have hcount := (h.lists b).sleepers t
    rw [if_pos ⟨hsched, hlist⟩] at hcount
    exact List.count_pos_iff.mp (by omega)
  · have hle := single_le_sum (f := fun t => if sys.sched t = some q ∧
      (s.tasks t).onList sys b (s.buckets b).wakes = true then 1 else 0) (fun _ _ => Nat.zero_le _) (mem_univ t)
    rw [if_pos ⟨hsched, hlist⟩, ← (h.lists b).blocked q] at hle
    exact List.count_pos_iff.mp hle

omit [DecidableEq W] [Fintype B] in
theorem ThreadsInv.not_missing (h : ThreadsInv sys s) {c : Call W} {seen : ℕ}
    (ht : s.tasks t = .relocked c seen k) (htimed : c.timed = false)
    (hseen : (s.buckets (sys.bucket c.word)).wakes = seen)
    (hmissing : .thread t ∉ (s.buckets (sys.bucket c.word)).notes ∨
      (sys.sched t = none ∧ t ∉ (s.buckets (sys.bucket c.word)).sleepers) ∨
      ∃ q, sys.sched t = some q ∧ q ∉ (s.buckets (sys.bucket c.word)).blocked) : False := by
  obtain ⟨hnote, hsleeper, hblocked⟩ := h.present (t := t) (b := sys.bucket c.word)
    (by rw [ht, hseen]; exact onList_relocked htimed)
  rcases hmissing with hmissing | ⟨hsched, hmissing⟩ | ⟨q, hsched, hmissing⟩
  · exact hmissing hnote
  · exact hmissing (hsleeper hsched)
  · exact hmissing (hblocked q hsched)

omit [DecidableEq W] [DecidableEq B] [DecidableEq S] in
theorem pending_le_placed (s : State ι M W B S κ) (t f : ι) : (s.tasks t).pending.count f ≤ s.placed f :=
  (single_le_sum (f := fun d => (s.tasks d).pending.count f) (fun _ _ => Nat.zero_le _) (mem_univ t)).trans
    (Nat.le_add_left _ _)

omit [DecidableEq W] [DecidableEq B] [DecidableEq S] in
theorem FibersInv.of_pending (h : FibersInv sys s) {f : ι} (hf : f ∈ (s.tasks t).pending) :
    (∃ w, (s.tasks f).stage = .parking w ∧ s.fiber f = .parking) ∨ ∃ w, (s.tasks f).stage = .parked w ∧ s.fiber f = .parked := by
  have hpos := (List.count_pos_iff.mpr hf).trans_le (pending_le_placed s t f)
  rw [(h.fiber f).once] at hpos
  split at hpos
  next hplaced =>
    obtain ⟨hword, hstate⟩ := hplaced
    cases hstage : (s.tasks f).stage with
    | parking w => exact .inl ⟨w, rfl, ((h.fiber f).parking w hstage).resolve_right hstate⟩
    | parked w => exact .inr ⟨w, rfl, ((h.fiber f).parked w hstage).resolve_right hstate⟩
    | other | requeuing | queued | popped => simp [hstage, Stage.word] at hword
  next => omega

omit [DecidableEq W] [DecidableEq B] [DecidableEq S] in
theorem FibersInv.not_other (h : FibersInv sys s) {f : ι} {fibers : List ι}
    (ht : s.tasks t = .wakeFibers (f :: fibers) k) (hstate : s.fiber f ≠ .parked ∧ s.fiber f ≠ .parking) : False := by
  rcases h.of_pending (t := t) (f := f) (by rw [ht]; exact List.mem_cons_self) with ⟨w, -, hparking⟩ | ⟨w, -, hparked⟩
  · exact hstate.2 hparking
  · exact hstate.1 hparked

end

variable [Fintype ι] [Fintype B] {sys : System ι M W B S κ χ} {s s' : State ι M W B S κ} {t : ι} {a' : Status ι W B S κ}

omit [DecidableEq ι] [DecidableEq W] [DecidableEq B] [DecidableEq S] [Fintype ι] [Fintype B] in
theorem plain_holds {a : Status ι W B S κ} (h : Plain sys s t a a') : a'.holds sys = a.holds sys := by
  cases h <;> rfl

omit [DecidableEq ι] [DecidableEq W] [DecidableEq S] [Fintype ι] [Fintype B] in
theorem notify_attr {Y : Type} (g : Status ι W B S κ → Y) (hg : ∀ c seen k, g (.roused c seen k) = g (.asleep c seen k))
    (st : Status ι W B S κ) (b : B) : g (st.notify sys b) = g st := by
  cases st with
  | asleep c seen k =>
    rw [Status.notify]
    split
    · exact hg c seen k
    · rfl
  | _ => rfl

variable (h : Locked sys s)
include h

omit [DecidableEq ι] [DecidableEq W] [DecidableEq B] [DecidableEq S] [Fintype ι] [Fintype B] in
theorem Locked.frame (hholds : ∀ u, (s'.tasks u).holds sys = (s.tasks u).holds sys)
    (hheld : ∀ b, (s'.buckets b).held = (s.buckets b).held) : Locked sys s' := by
  intro t b
  rw [hholds, hheld]
  exact h t b

variable (htasks : s'.tasks = update s.tasks t a')
include htasks

omit [DecidableEq W] [DecidableEq B] [DecidableEq S] [Fintype ι] [Fintype B] in
theorem Locked.set
    (hbuckets : s'.buckets = s.buckets) (ha' : a'.holds sys = (s.tasks t).holds sys) : Locked sys s' := by
  refine h.frame (fun u => ?_) fun b => by rw [hbuckets]
  rw [htasks]
  exact attr_update (fun _ (st : Status ι W B S κ) => st.holds sys) ha' u

variable {b : B} {w : Waiters ι W S} (hbuckets : s'.buckets = update s.buckets b w)
include hbuckets

omit [DecidableEq W] [DecidableEq S] [Fintype ι] [Fintype B] in
theorem Locked.setBucket
    (ha' : a'.holds sys = (s.tasks t).holds sys) (hw : w.held = (s.buckets b).held) : Locked sys s' := by
  refine h.frame (fun u => ?_) fun b' => ?_
  · rw [htasks]
    exact attr_update (fun _ (st : Status ι W B S κ) => st.holds sys) ha' u
  · rw [hbuckets]
    exact attr_update (fun _ (w : Waiters ι W S) => w.held) hw b'

omit [DecidableEq W] [DecidableEq S] [Fintype ι] [Fintype B] in
theorem Locked.release
    (ht : (s.tasks t).holds sys = some b) (ha' : a'.holds sys = none) (hw : w.held = none) : Locked sys s' := by
  intro u b'
  rw [htasks, hbuckets]
  by_cases hu : u = t
  · subst hu
    rw [update_self, ha']
    by_cases hb : b' = b
    · subst hb
      rw [update_self, hw]
      simp
    · rw [update_of_ne hb, ← h u b', ht]
      simp [Ne.symm hb]
  · rw [update_of_ne hu]
    by_cases hb : b' = b
    · subst hb
      rw [update_self, hw, h u b', (h t b').mp ht]
      simp [Ne.symm hu]
    · rw [update_of_ne hb]
      exact h u b'

omit [DecidableEq W] [DecidableEq S] [Fintype ι] [Fintype B] in
theorem Locked.acquire
    (ht : (s.tasks t).holds sys = none) (hfree : (s.buckets b).held = none) (ha' : a'.holds sys = some b)
    (hw : w.held = some t) : Locked sys s' := by
  intro u b'
  rw [htasks, hbuckets]
  by_cases hu : u = t
  · subst hu
    rw [update_self, ha']
    by_cases hb : b' = b
    · subst hb
      rw [update_self, hw]
      simp
    · rw [update_of_ne hb, ← h u b', ht]
      simp [Ne.symm hb]
  · rw [update_of_ne hu]
    by_cases hb : b' = b
    · subst hb
      rw [update_self, hw, h u b', hfree]
      simp [Ne.symm hu]
    · rw [update_of_ne hb]
      exact h u b'

omit hbuckets
omit htasks
omit h

omit [DecidableEq W] [DecidableEq B] [Fintype ι] [Fintype B] in
theorem push_holds (s : State ι M W B S κ) (f u : ι) : ((s.push sys f).tasks u).holds sys = (s.tasks u).holds sys := by
  unfold State.push
  split
  next q c k hsched hf =>
    exact attr_update (fun _ (st : Status ι W B S κ) => st.holds sys) (by rw [hf]; rfl) u
  next => rfl

omit [DecidableEq W] [DecidableEq B] [Fintype ι] [Fintype B] in
@[simp] theorem push_buckets (s : State ι M W B S κ) (f : ι) : (s.push sys f).buckets = s.buckets := by
  unfold State.push
  split <;> rfl

omit [DecidableEq ι] [DecidableEq W] [DecidableEq B] [Fintype ι] [Fintype B] in
@[simp] theorem count_tasks (s : State ι M W B S κ) (t : ι) (n : ℤ) : (s.count sys t n).tasks = s.tasks := by
  unfold State.count
  split <;> rfl

omit [DecidableEq ι] [DecidableEq W] [DecidableEq B] [Fintype ι] [Fintype B] in
@[simp] theorem count_buckets (s : State ι M W B S κ) (t : ι) (n : ℤ) : (s.count sys t n).buckets = s.buckets := by
  unfold State.count
  split <;> rfl

theorem Inv.lock_step (h : Inv sys s) (hstep : Change sys s s') : Locked sys s' := by
  cases hstep with
  | access ht | parked ht | queue ht | pop hi ht | resume ht
  | uncount ht | unblocked ht | wakeParked ht | wakeParking ht => exact h.lock.set rfl rfl (by rw [ht]; rfl)
  | plain ht hplain => exact h.lock.set rfl rfl (by rw [ht, plain_holds hplain])
  | acquire ht hacquires hfree =>
    refine h.lock.acquire rfl rfl ?_ hfree ?_ rfl
    · rw [ht]
      cases hacquires <;> rfl
    · cases hacquires <;> rfl
  | release ht hreleases =>
    refine h.lock.release rfl rfl ?_ ?_ rfl
    · rw [ht]
      cases hreleases <;> rfl
    · cases hreleases <;> rfl
  | list ht | block ht | unlist ht | unblock ht | take ht => exact h.lock.setBucket rfl rfl (by rw [ht]; rfl) rfl
  | park ht => exact h.lock.release rfl rfl (by rw [ht]; rfl) rfl rfl
  | count ht hcounts =>
    refine h.lock.set (congrArg (update · _ _) (count_tasks s _ _)) (count_buckets s _ _) ?_
    rw [ht]
    cases hcounts <;> rfl
  | missing ht htimed hseen hmissing => exact (h.threads.not_missing ht htimed hseen hmissing).elim
  | notify ht =>
    refine h.lock.frame (fun u => ?_) fun _ => rfl
    rw [attr_update (fun _ (st : Status ι W B S κ) => st.holds sys) (by rw [ht]; rfl) u]
    exact notify_attr (fun st => st.holds sys) (fun _ _ _ => rfl) _ _
  | wakeOther ht hstate => exact (h.fibers.not_other ht hstate).elim
  | push ht =>
    refine h.lock.frame (fun u => ?_) fun b => by rw [State.set, push_buckets]
    rw [State.set, attr_update (fun _ (st : Status ι W B S κ) => st.holds sys) (by rw [push_holds, ht]; rfl) u]
    exact push_holds s _ u

end Vx.Wait
