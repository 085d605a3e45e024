import Vx.Remote.RoundTrip

/-!
Framed messages over a stream of bytes: `runtime/vx_transport.h`. A loop is cut at its calls of `read` and `write`;
between two calls it is in a state that says what the next call asks for.
-/

namespace Vx.Transport

open Remote

inductive Status
  | ok | eof | error | malformed | tooLarge
deriving DecidableEq, Repr

inductive WriteResult
  | interrupted
  | failed
  | wrote (n : ℕ)

inductive ReadResult
  | interrupted
  | failed
  | got (bytes : Bytes)

inductive Turn (σ α : Type)
  | next (state : σ)
  | stop (result : α)
deriving DecidableEq, Repr

def writeAll (rest : Bytes) : Turn Bytes Status := if rest = [] then .stop .ok else .next rest

def writeAllAfter (rest : Bytes) : WriteResult → Turn Bytes Status
  | .interrupted => writeAll rest
  | .failed => .stop .error
  | .wrote 0 => .stop .error
  | .wrote (n + 1) => writeAll (rest.drop (n + 1))

def readAll (len : ℕ) (got : Bytes) : Turn Bytes (Status × Bytes) :=
  if got.length < len then .next got else .stop (.ok, got)

def readAllAfter (len : ℕ) (got : Bytes) : ReadResult → Turn Bytes (Status × Bytes)
  | .interrupted => readAll len got
  | .failed => .stop (.error, got)
  | .got [] => .stop (if got.length = 0 then .eof else .error, got)
  | .got (b :: bytes) => readAll len (got ++ b :: bytes)

def headerBytes : ℕ := 20

def wireMagic : ℕ := 0x4D525856

def wireVersion : ℕ := 1

structure Message where
  type : ℕ
  body : Bytes
  type_lt : type < 2 ^ 32
  body_lt : body.length < 2 ^ 64

def putHeader (w : Writer) (type bodyLen : ℕ) : Writer :=
  (((w.putU32 wireMagic).putU32 wireVersion).putU32 type).putU64 bodyLen

inductive SendState
  | header (rest : Bytes)
  | body (rest : Bytes)

def sendBody : Turn Bytes Status → Turn SendState Status
  | .next rest => .next (.body rest)
  | .stop rc => .stop rc

def sendHeader (m : Message) : Turn Bytes Status → Turn SendState Status
  | .next rest => .next (.header rest)
  | .stop .ok => if m.body.length = 0 then .stop .ok else sendBody (writeAll m.body)
  | .stop rc => .stop rc

def send (m : Message) : Turn SendState Status :=
  let w := putHeader (Writer.init headerBytes) m.type m.body.length
  if w.overflow ∨ w.written.length ≠ headerBytes then .stop .error else sendHeader m (writeAll w.written)

def sendAfter (m : Message) (result : WriteResult) : SendState → Turn SendState Status
  | .header rest => sendHeader m (writeAllAfter rest result)
  | .body rest => sendBody (writeAllAfter rest result)

/-- What a call of `vx_transport_recv` returns: its status, the type and the length where it sets them, and the bytes
it leaves in the body. -/
structure Outcome where
  status : Status
  frame : Option (ℕ × ℕ)
  body : Option Bytes
deriving DecidableEq, Repr

inductive RecvState
  | header (got : Bytes)
  | body (type len : ℕ) (got : Bytes)
  | drain (type len left : ℕ) (got : Bytes)

def recvBody (type len : ℕ) : Turn Bytes (Status × Bytes) → Turn RecvState Outcome
  | .next got => .next (.body type len got)
  | .stop (.ok, got) => .stop ⟨.ok, some (type, len), some got⟩
  | .stop (rc, _) => .stop ⟨rc, some (type, len), none⟩

def scratchBytes : ℕ := 1024

def chunk (left : ℕ) : ℕ := if scratchBytes < left then scratchBytes else left

def drain (type len left : ℕ) : Turn RecvState Outcome :=
  if 0 < left then .next (.drain type len left []) else .stop ⟨.tooLarge, some (type, len), none⟩

def drainChunk (type len left : ℕ) : Turn Bytes (Status × Bytes) → Turn RecvState Outcome
  | .next got => .next (.drain type len left got)
  | .stop (.ok, _) => drain type len (left - chunk left)
  | .stop (rc, _) => .stop ⟨rc, some (type, len), none⟩

def getHeader (header : Bytes) : Option (ℕ × ℕ × ℕ × ℕ) := do
  let (magic, r) ← wireGetU32 header
  let (version, r) ← wireGetU32 r
  let (type, r) ← wireGetU32 r
  let (len, _) ← wireGetU64 r
  return (magic, version, type, len)

def recvHeader (capacity : ℕ) : Turn Bytes (Status × Bytes) → Turn RecvState Outcome
  | .next got => .next (.header got)
  | .stop (.ok, header) =>
    match getHeader header with
    | none => .stop ⟨.error, none, none⟩
    | some (magic, version, type, len) =>
      if magic ≠ wireMagic ∨ version ≠ wireVersion then .stop ⟨.malformed, none, none⟩
      else if capacity < len then drain type len len
      else if len = 0 then .stop ⟨.ok, some (type, len), some []⟩
      else recvBody type len (readAll len [])
  | .stop (rc, _) => .stop ⟨rc, none, none⟩

def recv (capacity : ℕ) : Turn RecvState Outcome := recvHeader capacity (readAll headerBytes [])

def recvAfter (capacity : ℕ) (result : ReadResult) : RecvState → Turn RecvState Outcome
  | .header got => recvHeader capacity (readAllAfter headerBytes got result)
  | .body type len got => recvBody type len (readAllAfter len got result)
  | .drain type len left got => drainChunk type len left (readAllAfter (chunk left) got result)

def RecvState.asks : RecvState → ℕ
  | .header got => headerBytes - got.length
  | .body _ len got => len - got.length
  | .drain _ _ left got => chunk left - got.length

inductive Sender
  | sending (state : SendState) (m : Message) (left : List Message)
  | finished
  | broken

def Sender.start : List Message → Sender
  | [] => .finished
  | m :: left =>
    match send m with
    | .next state => .sending state m left
    | .stop .ok => Sender.start left
    | .stop _ => .broken

def Sender.settle (m : Message) (left : List Message) : Turn SendState Status → Sender
  | .next state => .sending state m left
  | .stop .ok => .start left
  | .stop _ => .broken

inductive Receiver
  | receiving (state : RecvState) (capacity : ℕ) (left : List ℕ)
  | finished

def Receiver.start : List ℕ → Receiver × List Outcome
  | [] => (.finished, [])
  | capacity :: left =>
    match recv capacity with
    | .next state => (.receiving state capacity left, [])
    | .stop outcome => ((Receiver.start left).1, outcome :: (Receiver.start left).2)

def Receiver.settle (capacity : ℕ) (left : List ℕ) : Turn RecvState Outcome → Receiver × List Outcome
  | .next state => (.receiving state capacity left, [])
  | .stop outcome => ((Receiver.start left).1, outcome :: (Receiver.start left).2)

structure System where
  sender : Sender
  stream : Bytes
  receiver : Receiver
  outcomes : List Outcome

def System.start (ms : List Message) (capacities : List ℕ) : System :=
  ⟨.start ms, [], (Receiver.start capacities).1, (Receiver.start capacities).2⟩

def System.write (σ : System) (rest : Bytes) (n : ℕ) (sender : Sender) : System :=
  { σ with sender, stream := σ.stream ++ rest.take n }

def SendState.rest : SendState → Bytes
  | .header rest => rest
  | .body rest => rest

def System.received (σ : System) (stream : Bytes) (next : Receiver × List Outcome) : System :=
  { σ with stream, receiver := next.1, outcomes := σ.outcomes ++ next.2 }

/-- A call moves bytes, or reports the end of the stream. A `write` takes any positive number of the bytes it is
offered, a `read` gives any positive number of the bytes it asks for that are there, and gives none once the stream is
closed and empty. -/
inductive Moves : System → System → Prop
  | write {σ : System} {state : SendState} {m : Message} {left : List Message} {n : ℕ}
      (hsender : σ.sender = .sending state m left) (hn : n < state.rest.length) :
      Moves σ (σ.write state.rest (n + 1) (.settle m left (sendAfter m (.wrote (n + 1)) state)))
  | read {σ : System} {state : RecvState} {capacity : ℕ} {left : List ℕ} {b : UInt8} {bytes rest : Bytes}
      (hreceiver : σ.receiver = .receiving state capacity left) (hstream : σ.stream = b :: bytes ++ rest)
      (hn : bytes.length < state.asks) :
      Moves σ (σ.received rest (Receiver.settle capacity left (recvAfter capacity (.got (b :: bytes)) state)))
  | eof {σ : System} {state : RecvState} {capacity : ℕ} {left : List ℕ}
      (hreceiver : σ.receiver = .receiving state capacity left) (hstream : σ.stream = [])
      (hsender : σ.sender = .finished) :
      Moves σ (σ.received [] (Receiver.settle capacity left (recvAfter capacity (.got []) state)))

inductive Interrupts : System → System → Prop
  | write {σ : System} {state : SendState} {m : Message} {left : List Message}
      (hsender : σ.sender = .sending state m left) :
      Interrupts σ { σ with sender := .settle m left (sendAfter m .interrupted state) }
  | read {σ : System} {state : RecvState} {capacity : ℕ} {left : List ℕ}
      (hreceiver : σ.receiver = .receiving state capacity left) :
      Interrupts σ (σ.received σ.stream (Receiver.settle capacity left (recvAfter capacity .interrupted state)))

def Reachable (ms : List Message) (capacities : List ℕ) : System → Prop :=
  Relation.ReflTransGen (fun σ σ' => Moves σ σ' ∨ Interrupts σ σ') (.start ms capacities)

def delivered (m : Message) (capacity : ℕ) : Outcome :=
  if capacity < m.body.length then ⟨.tooLarge, some (m.type, m.body.length), none⟩
  else ⟨.ok, some (m.type, m.body.length), some m.body⟩

def expected : List Message → List ℕ → List Outcome
  | _, [] => []
  | [], _ :: capacities => ⟨.eof, none, none⟩ :: expected [] capacities
  | m :: ms, capacity :: capacities => delivered m capacity :: expected ms capacities

end Vx.Transport
