import Mathlib

namespace Vx.Channel

open Function (update)

structure Words (α : Type) where
  sends : ℕ
  recvs : ℕ
  senders : ℤ
  receiver : ℤ
  ends : ℤ
  wake : ℕ
  sleepers : ℤ
  skips : ℤ
  slots : ℕ → ℕ
  data : ℕ → α
  skipSet : Finset ℕ
  freed : Bool
  panicked : Bool

inductive RecvError
  | closed | cancelled | timedOut | empty
deriving DecidableEq, Repr

inductive SendResult (α : Type)
  | ok (k : ℕ) (value : α)
  | err (k : Option ℕ) (value : α) (cancelled timedOut : Bool)

inductive Event (α : Type)
  | sent (result : SendResult α)
  | received (k : ℕ) (value : α)
  | noValue (why : RecvError)
  | dropped (k : ℕ) (value : α)

structure Input where
  cancelled : Bool
  late : Bool

section

inductive NotifyPc
  | bump | look | wake
deriving DecidableEq, Repr

variable {α : Type}

def NotifyPc.step (c : Words α) : NotifyPc → Words α × Option NotifyPc
  | .bump => ({ c with wake := c.wake + 1 }, some .look)
  | .look => (c, if 0 < c.sleepers then some .wake else none)
  | .wake => (c, none)

inductive ReleasePc
  | ends
  | readRecvs
  | readSends (k : ℕ)
  | scan (k stop : ℕ)
  | drop (k stop : ℕ)
  | readSkips
  | forget
  | free
deriving DecidableEq, Repr

variable {α : Type} (cap : ℕ)

def ReleasePc.step (c : Words α) : ReleasePc → Words α × Option ReleasePc × List (Event α)
  | .ends => ({ c with ends := c.ends - 1 }, if c.ends = 1 then some .readRecvs else none, [])
  | .readRecvs => (c, some (.readSends c.recvs), [])
  | .readSends k => (c, some (.scan k c.sends), [])
  | .scan k stop =>
    if k < stop then
      if c.slots (k % cap) = 2 * k + 1 then (c, some (.drop k stop), []) else (c, some (.scan (k + 1) stop), [])
    else (c, some .readSkips, [])
  | .drop k stop => (c, some (.scan (k + 1) stop), [.dropped k (c.data (k % cap))])
  | .readSkips => (c, some (if 0 < c.skips then .forget else .free), [])
  | .forget => ({ c with skipSet := ∅ }, some .free, [])
  | .free => ({ c with freed := true }, none, [])

structure SendCall (α : Type) where
  value : α
  timed : Bool

inductive SendPc (α : Type)
  | unborn
  | idle
  | gone
  | enter (call : SendCall α)
  | number (call : SendCall α)
  | readWake (k : ℕ) (call : SendCall α)
  | readReceiver (k seen : ℕ) (call : SendCall α)
  | readSlot (k seen : ℕ) (call : SendCall α)
  | write (k : ℕ) (call : SendCall α)
  | publish (k : ℕ) (call : SendCall α)
  | check (k seen : ℕ) (call : SendCall α)
  | skip (k : ℕ) (call : SendCall α) (wasCancelled : Bool)
  | countSkip (k : ℕ) (call : SendCall α) (wasCancelled : Bool)
  | sleep (k seen : ℕ) (call : SendCall α)
  | asleep (k seen : ℕ) (call : SendCall α)
  | woken (k : ℕ) (call : SendCall α)
  | notify (stage : NotifyPc) (result : SendResult α)
  | clone
  | cloneEnds
  | dropSender
  | notifyDrop (stage : NotifyPc)
  | release (stage : ReleasePc)

variable {α : Type} (cap : ℕ) (input : Input)

def SendPc.step (c : Words α) : SendPc α → Option (Words α × SendPc α × List (Event α))
  | .unborn | .idle | .gone | .cloneEnds => none
  | .enter call =>
    if input.cancelled then some (c, .idle, [.sent (.err none call.value true false)])
    else some (c, .number call, [])
  | .number call => some ({ c with sends := c.sends + 1 }, .readWake c.sends call, [])
  | .readWake k call => some (c, .readReceiver k c.wake call, [])
  | .readReceiver k seen call =>
    if c.receiver = 1 then some (c, .readSlot k seen call, [])
    else some (c, .idle, [.sent (.err (some k) call.value false false)])
  | .readSlot k seen call =>
    if c.slots (k % cap) = 2 * k then some (c, .write k call, []) else some (c, .check k seen call, [])
  | .write k call => some ({ c with data := update c.data (k % cap) call.value }, .publish k call, [])
  | .publish k call =>
    some ({ c with slots := update c.slots (k % cap) (2 * k + 1) }, .notify .bump (.ok k call.value), [])
  | .check k seen call =>
    if input.cancelled || (call.timed && input.late) then some (c, .skip k call input.cancelled, [])
    else some (c, .sleep k seen call, [])
  | .skip k call wasCancelled =>
    if k ∈ c.skipSet then some ({ c with panicked := true }, .gone, [])
    else some ({ c with skipSet := insert k c.skipSet }, .countSkip k call wasCancelled, [])
  | .countSkip k call wasCancelled =>
    some ({ c with skips := c.skips + 1 },
      .notify .bump (.err (some k) call.value wasCancelled (!wasCancelled)), [])
  | .sleep k seen call => some ({ c with sleepers := c.sleepers + 1 }, .asleep k seen call, [])
  | .asleep k _ call => some (c, .woken k call, [])
  | .woken k call => some ({ c with sleepers := c.sleepers - 1 }, .readWake k call, [])
  | .notify stage result =>
    match stage.step c with
    | (c, some stage) => some (c, .notify stage result, [])
    | (c, none) => some (c, .idle, [.sent result])
  | .clone => some ({ c with senders := c.senders + 1 }, .cloneEnds, [])
  | .dropSender =>
    some ({ c with senders := c.senders - 1 }, if c.senders = 1 then .notifyDrop .bump else .release .ends, [])
  | .notifyDrop stage =>
    match stage.step c with
    | (c, some stage) => some (c, .notifyDrop stage, [])
    | (c, none) => some (c, .release .ends, [])
  | .release stage =>
    match stage.step cap c with
    | (c, some stage, events) => some (c, .release stage, events)
    | (c, none, events) => some (c, .gone, events)

inductive RecvCall
  | tryRecv
  | recv (timed : Bool)
deriving DecidableEq, Repr

inductive RecvPc (α : Type)
  | idle
  | gone
  | start (call : RecvCall)
  | readWake (k : ℕ) (call : RecvCall)
  | checkCancel (k seen : ℕ) (call : RecvCall)
  | readSenders (k seen : ℕ) (call : RecvCall)
  | readSlot (k seen : ℕ) (call : RecvCall) (closed : Bool)
  | advance (k : ℕ)
  | take (k : ℕ)
  | store (k : ℕ) (value : α)
  | notify (stage : NotifyPc) (k : ℕ) (value : α)
  | readSkips (k seen : ℕ) (call : RecvCall) (closed : Bool)
  | takeSkip (k seen : ℕ) (call : RecvCall) (closed : Bool)
  | countSkip (k : ℕ) (call : RecvCall)
  | passNumber (k : ℕ) (call : RecvCall)
  | passSlot (k : ℕ) (call : RecvCall)
  | notifySkip (stage : NotifyPc) (k : ℕ) (call : RecvCall)
  | settle (k seen : ℕ) (call : RecvCall) (closed : Bool)
  | sleep (k seen : ℕ) (call : RecvCall)
  | asleep (k seen : ℕ) (call : RecvCall)
  | woken (k : ℕ) (call : RecvCall)
  | dropReceiver
  | notifyDrop (stage : NotifyPc)
  | release (stage : ReleasePc)

variable {α : Type} (cap : ℕ) (input : Input)

def RecvCall.loop (k : ℕ) : RecvCall → RecvPc α
  | .tryRecv => .readSenders k 0 .tryRecv
  | .recv timed => .readWake k (.recv timed)

def RecvCall.settle (k seen : ℕ) (closed : Bool) : RecvCall → RecvPc α × List (Event α)
  | .tryRecv => (.idle, [.noValue (if closed then .closed else .empty)])
  | .recv timed =>
    if closed then (.idle, [.noValue .closed])
    else if timed && input.late then (.idle, [.noValue .timedOut])
    else (.sleep k seen (.recv timed), [])

def RecvPc.step (c : Words α) : RecvPc α → Option (Words α × RecvPc α × List (Event α))
  | .idle | .gone => none
  | .start call => some (c, call.loop c.recvs, [])
  | .readWake k call => some (c, .checkCancel k c.wake call, [])
  | .checkCancel k seen call =>
    if input.cancelled then some (c, .idle, [.noValue .cancelled]) else some (c, .readSenders k seen call, [])
  | .readSenders k seen call => some (c, .readSlot k seen call (c.senders = 0), [])
  | .readSlot k seen call closed =>
    if c.slots (k % cap) = 2 * k + 1 then some (c, .advance k, []) else some (c, .readSkips k seen call closed, [])
  | .advance k => some ({ c with recvs := k + 1 }, .take k, [])
  | .take k => some (c, .store k (c.data (k % cap)), [])
  | .store k value => some ({ c with slots := update c.slots (k % cap) (2 * (k + cap)) }, .notify .bump k value, [])
  | .notify stage k value =>
    match stage.step c with
    | (c, some stage) => some (c, .notify stage k value, [])
    | (c, none) => some (c, .idle, [.received k value])
  | .readSkips k seen call closed =>
    if c.skips = 0 then some (c, .settle k seen call closed, []) else some (c, .takeSkip k seen call closed, [])
  | .takeSkip k seen call closed =>
    if k ∈ c.skipSet then some ({ c with skipSet := c.skipSet.erase k }, .countSkip k call, [])
    else some (c, .settle k seen call closed, [])
  | .countSkip k call => some ({ c with skips := c.skips - 1 }, .passNumber k call, [])
  | .passNumber k call => some ({ c with recvs := k + 1 }, .passSlot k call, [])
  | .passSlot k call =>
    some ({ c with slots := update c.slots (k % cap) (2 * (k + cap)) }, .notifySkip .bump k call, [])
  | .notifySkip stage k call =>
    match stage.step c with
    | (c, some stage) => some (c, .notifySkip stage k call, [])
    | (c, none) => some (c, call.loop (k + 1), [])
  | .settle k seen call closed => some (c, call.settle input k seen closed)
  | .sleep k seen call => some ({ c with sleepers := c.sleepers + 1 }, .asleep k seen call, [])
  | .asleep k _ call => some (c, .woken k call, [])
  | .woken k call => some ({ c with sleepers := c.sleepers - 1 }, .readWake k call, [])
  | .dropReceiver => some ({ c with receiver := 0 }, .notifyDrop .bump, [])
  | .notifyDrop stage =>
    match stage.step c with
    | (c, some stage) => some (c, .notifyDrop stage, [])
    | (c, none) => some (c, .release .ends, [])
  | .release stage =>
    match stage.step cap c with
    | (c, some stage, events) => some (c, .release stage, events)
    | (c, none, events) => some (c, .gone, events)

end

inductive SendOp (α : Type)
  | send (value : α)
  | sendFor (value : α)
  | clone
  | drop

inductive RecvOp
  | recv | recvFor | tryRecv | drop

inductive Action (α : Type)
  | callSender (i : ℕ) (op : SendOp α)
  | sender (i : ℕ) (input : Input)
  | callReceiver (op : RecvOp)
  | receiver (input : Input)

variable {α : Type}

structure State (α : Type) where
  words : Words α
  senders : ℕ → SendPc α
  made : ℕ
  receiver : RecvPc α
  log : List (Event α)

def SendOp.entry : SendOp α → SendPc α
  | .send value => .enter ⟨value, false⟩
  | .sendFor value => .enter ⟨value, true⟩
  | .clone => .clone
  | .drop => .dropSender

def RecvOp.entry : RecvOp → RecvPc α
  | .recv => .start (.recv false)
  | .recvFor => .start (.recv true)
  | .tryRecv => .start .tryRecv
  | .drop => .dropReceiver

def State.channel (buffer : ℕ → α) : State α where
  words := {
    sends := 0, recvs := 0, senders := 1, receiver := 1, ends := 2, wake := 0, sleepers := 0, skips := 0,
    slots := fun i => 2 * i, data := buffer, skipSet := ∅, freed := false, panicked := false }
  senders := update (fun _ => .unborn) 0 .idle
  made := 1
  receiver := .idle
  log := []

variable (cap : ℕ)

def State.stepSender (s : State α) (i : ℕ) (input : Input) : Option (State α) :=
  match s.senders i with
  | .cloneEnds => some { s with
      words := { s.words with ends := s.words.ends + 1 }
      senders := update (update s.senders i .idle) s.made .idle
      made := s.made + 1 }
  | pc =>
    match pc.step cap input s.words with
    | some (words, pc, events) =>
      some { s with words, senders := update s.senders i pc, log := s.log ++ events }
    | none => none

def State.stepReceiver (s : State α) (input : Input) : Option (State α) :=
  match s.receiver.step cap input s.words with
  | some (words, receiver, events) => some { s with words, receiver, log := s.log ++ events }
  | none => none

def State.step (s : State α) : Action α → Option (State α)
  | .callSender i op =>
    match s.senders i with
    | .idle => some { s with senders := update s.senders i op.entry }
    | _ => none
  | .sender i input => s.stepSender cap i input
  | .callReceiver op =>
    match s.receiver with
    | .idle => some { s with receiver := op.entry }
    | _ => none
  | .receiver input => s.stepReceiver cap input

def State.run (s : State α) : List (Action α) → Option (State α)
  | [] => some s
  | a :: as => (s.step cap a).bind fun s => s.run as

end Vx.Channel
