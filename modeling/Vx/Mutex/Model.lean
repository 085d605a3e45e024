import Vx.Lib.MachineInt
import Vx.Wait.Model

/-!
The lock of `mutex.vx`, in a program that does anything else between its calls.
-/

namespace Vx.Mutex

open Lib.MachineInt
open Wait (Act Call Fibers)

inductive Word (W : Type)
  | serving
  | other (w : W)
deriving DecidableEq

/-- The atomics of a `Mutex`, the memory of the rest of the program, and what happened so far: the guards that exist, each
by its ticket, the tickets that were taken, and those that got a guard. -/
structure Memory (ι R : Type) where
  next : ℤ
  serving : ℤ
  sleepers : ℤ
  rest : R
  guards : List ℤ
  taken : List (ι × ℤ)
  granted : List (ι × ℤ)

inductive Place
  | idle
  -- `lock`, with its ticket
  | load (ticket : ℤ)
  | announce (ticket now : ℤ)
  | sleep (ticket now : ℤ)
  | retire (ticket : ℤ)
  -- `drop`, with the ticket of the guard
  | look (ticket : ℤ)
  | wake (ticket : ℤ)
  | dropped (ticket : ℤ)
deriving DecidableEq

inductive Choice (W B R : Type)
  | lock
  | drop (ticket : ℤ)
  | access (f : R → R)
  | wait (call : Call W)
  | wake (b : B) (which : Fibers (Word W))

structure Setting (ι W B S R : Type) where
  bucket : Word W → B
  sched : ι → Option S
  read : R → W → ℤ

variable {ι W B R : Type}

def Memory.new (rest : R) : Memory ι R := ⟨0, 0, 0, rest, [], [], []⟩

def takeTicket (t : ι) (m : Memory ι R) : Memory ι R × Place :=
  ({ m with next := toI64 (m.next + 1), taken := m.taken ++ [(t, m.next)] }, .load m.next)

def readServing (t : ι) (ticket : ℤ) (m : Memory ι R) : Memory ι R × Place :=
  if m.serving ≠ ticket then (m, .announce ticket m.serving)
  else ({ m with guards := m.guards ++ [ticket], granted := m.granted ++ [(t, ticket)] }, .idle)

def dropGuard (ticket : ℤ) (m : Memory ι R) : Memory ι R × Place :=
  if ticket ∈ m.guards then
    ({ m with serving := toI64 (m.serving + 1), guards := m.guards.erase ticket }, .look ticket)
  else (m, .idle)

def act (bucket : Word W → B) (t : ι) : Place → Choice W B R → Option (Act (Memory ι R) (Word W) B Place)
  | .idle, .lock => some (.access (takeTicket t))
  | .idle, .drop ticket => some (.access (dropGuard ticket))
  | .idle, .access f => some (.access fun m => ({ m with rest := f m.rest }, .idle))
  | .idle, .wait c => some (.wait ⟨.other c.word, c.value, c.orCancel, c.timed⟩ .idle)
  | .idle, .wake b which => some (.wake b which .idle)
  | .load ticket, _ => some (.access (readServing t ticket))
  | .announce ticket now, _ =>
    some (.access fun m => ({ m with sleepers := toI64 (m.sleepers + 1) }, .sleep ticket now))
  | .sleep ticket now, _ => some (.wait ⟨.serving, now, false, false⟩ (.retire ticket))
  | .retire ticket, _ => some (.access fun m => ({ m with sleepers := toI64 (m.sleepers - 1) }, .load ticket))
  | .look ticket, _ => some (.access fun m => (m, if m.sleepers > 0 then .wake ticket else .idle))
  | .wake ticket, _ => some (.wake (bucket .serving) (.of .serving) (.dropped ticket))
  | .dropped _, _ => some (.access fun m => (m, .idle))

def Memory.read (read : R → W → ℤ) (m : Memory ι R) : Word W → ℤ
  | .serving => m.serving
  | .other w => read m.rest w

def Setting.system {S : Type} (set : Setting ι W B S R) :
    Wait.System ι (Memory ι R) (Word W) B S Place (Choice W B R) where
  limit := 0
  bucket := set.bucket
  read := Memory.read set.read
  sched := set.sched
  act := act set.bucket

end Vx.Mutex
