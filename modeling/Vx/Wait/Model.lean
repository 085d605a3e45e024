import Vx.Lib.Parking

/-!
The waits and wakes of `wait.rs`, with the fibers and the ready queues of `sched.rs`. The tasks around them are any
programs that share a memory.
-/

namespace Vx.Wait

open Function (update)

inductive FiberState
  | running | parking | parked | woken
deriving DecidableEq, Repr

inductive Fibers (W : Type)
  | of (word : W)
  | all
  | none
deriving DecidableEq

def Fibers.takes {W : Type} [DecidableEq W] : Fibers W → W → Bool
  | .of word, w => w = word
  | .all, _ => true
  | .none, _ => false

structure Call (W : Type) where
  word : W
  value : ℤ
  orCancel : Bool
  timed : Bool
deriving DecidableEq

inductive Owner (ι : Type)
  | thread (t : ι)
  | fiber (t : ι)
deriving DecidableEq

structure Waiters (ι W S : Type) where
  held : Option ι
  fibers : List (ι × W)
  sleepers : List ι
  blocked : List S
  wakes : ℕ
  notes : List (Owner ι)

def Waiters.empty {ι W S : Type} : Waiters ι W S := ⟨none, [], [], [], 0, []⟩

inductive Act (M W B κ : Type)
  | access (f : M → M × κ)
  | wait (call : Call W) (k : κ)
  | wake (b : B) (which : Fibers W) (k : κ)

inductive Status (ι W B S κ : Type)
  | running (k : κ)
  -- in `wait`, before the sleep
  | locking (c : Call W) (k : κ)
  | testing (c : Call W) (k : κ)
  | tested (c : Call W) (k : κ)
  | returning (c : Call W) (k : κ)
  -- a thread
  | listed (c : Call W) (k : κ)
  | counted (c : Call W) (k : κ)
  | asleep (c : Call W) (seen : ℕ) (k : κ)
  | roused (c : Call W) (seen : ℕ) (k : κ)
  | relocked (c : Call W) (seen : ℕ) (k : κ)
  | unlisted (c : Call W) (k : κ)
  -- a fiber
  | parking (c : Call W) (k : κ)
  | switched (c : Call W) (k : κ)
  | parked (c : Call W) (k : κ)
  | requeuing (k : κ)
  | queued (k : κ)
  | popped (k : κ)
  -- in `wake`
  | wakeLocking (b : B) (which : Fibers W) (k : κ)
  | wakeHolding (b : B) (which : Fibers W) (k : κ)
  | wakeCounting (b : B) (fibers : List ι) (sleepers : ℕ) (blocked : List S) (k : κ)
  | wakeUnblocking (b : B) (fibers : List ι) (blocked : List S) (k : κ)
  | wakeUnlocked (b : B) (fibers : List ι) (k : κ)
  | wakeFibers (fibers : List ι) (k : κ)
  | wakePushing (f : ι) (fibers : List ι) (k : κ)
  -- an `expect` or an `unreachable!` failed
  | panicked (k : κ)

/-- The count of wakes is held in a word that comes round at `limit`, which is `2 ^ 64` in the code; with `limit` at `0` it
never does. -/
structure System (ι M W B S κ χ : Type) where
  limit : ℕ
  bucket : W → B
  read : M → W → ℤ
  sched : ι → Option S
  act : ι → κ → χ → Option (Act M W B κ)

structure State (ι M W B S κ : Type) where
  mem : M
  tasks : ι → Status ι W B S κ
  buckets : B → Waiters ι W S
  fiber : ι → FiberState
  ready : S → List ι
  waiting : ℤ
  blocked : S → ℤ

/-- What a step meets: a cancel, a deadline that passed, a callback around the task, and a seed with a ready task. -/
structure Input where
  cancelled : Bool
  late : Bool
  callback : Bool
  hosts : Bool

inductive Move (ι S χ : Type)
  | client (t : ι) (x : χ)
  | step (t : ι) (input : Input)
  | rouse (t : ι)
  | pop (q : S) (i : ℕ)

variable {ι M W B S κ χ : Type} [DecidableEq ι] [DecidableEq W] [DecidableEq B] [DecidableEq S]

def State.set (s : State ι M W B S κ) (t : ι) (st : Status ι W B S κ) : State ι M W B S κ :=
  { s with tasks := update s.tasks t st }

def State.setBucket (s : State ι M W B S κ) (b : B) (w : Waiters ι W S) : State ι M W B S κ :=
  { s with buckets := update s.buckets b w }

def State.acquire (s : State ι M W B S κ) (b : B) (t : ι) (st : Status ι W B S κ) : Option (State ι M W B S κ) :=
  match (s.buckets b).held with
  | none => some ((s.setBucket b { s.buckets b with held := some t }).set t st)
  | some _ => none

def State.release (s : State ι M W B S κ) (b : B) : State ι M W B S κ :=
  s.setBucket b { s.buckets b with held := none }

variable (sys : System ι M W B S κ χ)

def State.stepTested (s : State ι M W B S κ) (t : ι) (c : Call W) (k : κ) (input : Input) : State ι M W B S κ :=
  let b := sys.bucket c.word
  let w := s.buckets b
  if c.timed && input.late then s.set t (.returning c k)
  else if (sys.sched t).isSome && !input.callback then
    { (s.setBucket b { w with
        held := none
        fibers := w.fibers ++ [(t, c.word)]
        notes := w.notes ++ [.fiber t] }).set t (.parking c k) with
      fiber := update s.fiber t .parking }
  else if (sys.sched t).isNone && input.hosts then (s.release b).set t (.running k)
  else if c.timed then (s.release b).set t (.asleep c w.wakes k)
  else
    (match sys.sched t with
    | none => s.setBucket b { w with sleepers := w.sleepers ++ [t], notes := w.notes ++ [Owner.thread t] }
    | some q => s.setBucket b { w with blocked := w.blocked ++ [q], notes := w.notes ++ [Owner.thread t] }).set t (.listed c k)

def State.count (s : State ι M W B S κ) (t : ι) (n : ℤ) : State ι M W B S κ :=
  match sys.sched t with
  | none => { s with waiting := s.waiting + n }
  | some q => { s with blocked := update s.blocked q (s.blocked q + n) }

/-- The part of `wait` after the sleep, under the lock. No wake came when the count of wakes is the one that was seen; the
counts are compared as the words that hold them. -/
def State.stepRelocked (s : State ι M W B S κ) (t : ι) (c : Call W) (seen : ℕ) (k : κ) : State ι M W B S κ :=
  let b := sys.bucket c.word
  let w := s.buckets b
  if c.timed || w.wakes % sys.limit ≠ seen % sys.limit then s.set t (.returning c k)
  else if .thread t ∉ w.notes then s.set t (.panicked k)
  else
    let w := { w with notes := w.notes.erase (.thread t) }
    match sys.sched t with
    | none =>
      if t ∈ w.sleepers then (s.setBucket b { w with sleepers := w.sleepers.erase t }).set t (.unlisted c k)
      else s.set t (.panicked k)
    | some q =>
      if q ∈ w.blocked then (s.setBucket b { w with blocked := w.blocked.erase q }).set t (.unlisted c k)
      else s.set t (.panicked k)

def State.stepHolding (s : State ι M W B S κ) (t : ι) (b : B) (which : Fibers W) (k : κ) : State ι M W B S κ :=
  let w := s.buckets b
  let taken := w.fibers.filter fun f => which.takes f.2
  let kept := w.fibers.filter fun f => !which.takes f.2
  (s.setBucket b { w with
    fibers := kept
    sleepers := []
    blocked := []
    wakes := w.wakes + 1
    notes := w.notes.filter fun owner => kept.any fun f => owner = .fiber f.1 }).set t
      (.wakeCounting b (taken.map Prod.fst) w.sleepers.length w.blocked k)

def Status.notify (b : B) : Status ι W B S κ → Status ι W B S κ
  | .asleep c seen k => if sys.bucket c.word = b then .roused c seen k else .asleep c seen k
  | st => st

def State.push (s : State ι M W B S κ) (f : ι) : State ι M W B S κ :=
  match sys.sched f, s.tasks f with
  | some q, .parked _ k => { s.set f (.queued k) with ready := update s.ready q (s.ready q ++ [f]) }
  | _, _ => s

def State.wakeFiber (s : State ι M W B S κ) (t f : ι) (fibers : List ι) (k : κ) : State ι M W B S κ :=
  { s.set t
      (match s.fiber f with
      | .parked => .wakePushing f fibers k
      | .parking => .wakeFibers fibers k
      | _ => .panicked k) with
    fiber := update s.fiber f .woken }

def State.stepTask (s : State ι M W B S κ) (t : ι) (input : Input) : Option (State ι M W B S κ) :=
  match s.tasks t with
  | .running _ | .asleep .. | .parked .. | .queued _ | .panicked _ => none
  | .locking c k => s.acquire (sys.bucket c.word) t (.testing c k)
  | .testing c k =>
    if sys.read s.mem c.word ≠ c.value || (c.orCancel && input.cancelled) then some (s.set t (.returning c k))
    else some (s.set t (.tested c k))
  | .tested c k => some (s.stepTested sys t c k input)
  | .returning c k => some ((s.release (sys.bucket c.word)).set t (.running k))
  | .listed c k => some ((s.count sys t 1).set t (.counted c k))
  | .counted c k =>
    some ((s.release (sys.bucket c.word)).set t (.asleep c (s.buckets (sys.bucket c.word)).wakes k))
  | .roused c seen k => s.acquire (sys.bucket c.word) t (.relocked c seen k)
  | .relocked c seen k => some (s.stepRelocked sys t c seen k)
  | .unlisted c k => some ((s.count sys t (-1)).set t (.returning c k))
  | .parking c k => some (s.set t (.switched c k))
  | .switched c k =>
    if s.fiber t = .parking then some { s.set t (.parked c k) with fiber := update s.fiber t .parked }
    else some (s.set t (.requeuing k))
  | .requeuing k =>
    match sys.sched t with
    | some q => some { s.set t (.queued k) with ready := update s.ready q (s.ready q ++ [t]) }
    | none => none
  | .popped k => some { s.set t (.running k) with fiber := update s.fiber t .running }
  | .wakeLocking b which k => s.acquire b t (.wakeHolding b which k)
  | .wakeHolding b which k => some (s.stepHolding t b which k)
  | .wakeCounting b fibers n blocked k =>
    some { s.set t (.wakeUnblocking b fibers blocked k) with waiting := s.waiting - n }
  | .wakeUnblocking b fibers (q :: blocked) k =>
    some { s.set t (.wakeUnblocking b fibers blocked k) with blocked := update s.blocked q (s.blocked q - 1) }
  | .wakeUnblocking b fibers [] k => some ((s.release b).set t (.wakeUnlocked b fibers k))
  | .wakeUnlocked b fibers k =>
    some { s with tasks := update (fun u => (s.tasks u).notify sys b) t (.wakeFibers fibers k) }
  | .wakeFibers (f :: fibers) k => some (s.wakeFiber t f fibers k)
  | .wakeFibers [] k => some (s.set t (.running k))
  | .wakePushing f fibers k => some ((s.push sys f).set t (.wakeFibers fibers k))

def State.stepClient (s : State ι M W B S κ) (t : ι) (x : χ) : Option (State ι M W B S κ) :=
  match s.tasks t with
  | .running k =>
    match sys.act t k x with
    | some (.access f) => some { s.set t (.running (f s.mem).2) with mem := (f s.mem).1 }
    | some (.wait c k) => some (s.set t (.locking c k))
    | some (.wake b which k) => some (s.set t (.wakeLocking b which k))
    | none => none
  | _ => none

def State.pop (s : State ι M W B S κ) (q : S) (i : ℕ) : Option (State ι M W B S κ) :=
  match (s.ready q)[i]? with
  | none => none
  | some t =>
    match s.tasks t with
    | .queued k => some { s.set t (.popped k) with ready := update s.ready q ((s.ready q).eraseIdx i) }
    | _ => none

def State.step (s : State ι M W B S κ) : Move ι S χ → Option (State ι M W B S κ)
  | .client t x => s.stepClient sys t x
  | .step t input => s.stepTask sys t input
  | .rouse t =>
    match s.tasks t with
    | .asleep c seen k => some (s.set t (.roused c seen k))
    | _ => none
  | .pop q i => s.pop q i

structure State.Initial (s : State ι M W B S κ) : Prop where
  thread : ∀ t, sys.sched t = none → ∃ k, s.tasks t = .running k
  fiber : ∀ t, sys.sched t ≠ none → ∃ k, s.tasks t = .queued k
  buckets : ∀ b, s.buckets b = .empty
  ready : ∀ q, (s.ready q).Nodup ∧ ∀ t, t ∈ s.ready q ↔ sys.sched t = some q
  waiting : s.waiting = 0
  blocked : ∀ q, s.blocked q = 0

def State.Step (s s' : State ι M W B S κ) : Prop := ∃ m : Move ι S χ, s.step sys m = some s'

/-- A thread that compares the count of wakes with the one it saw is not misled by a word that came round. -/
def State.InTime (s : State ι M W B S κ) : Prop :=
  ∀ t c seen k, s.tasks t = .relocked c seen k → c.timed = false →
    (s.buckets (sys.bucket c.word)).wakes % sys.limit = seen % sys.limit → (s.buckets (sys.bucket c.word)).wakes = seen

def State.Next (s s' : State ι M W B S κ) : Prop := s.InTime sys ∧ s.Step sys s'

end Vx.Wait
