import Vx.Lib.Buffers

/-!
The pool of device buffers: `runtime/vx_device_pool.h`. Calls are interleaved at the pool's lock, and what they do
without it (the calls of the driver) are steps of their own.
-/

namespace Vx.DevicePool

open Lib.Buffers (Buffer)

def sizeLimit : ℕ := 2 ^ 64

abbrev FreeLists := List (ℕ × List ℕ)

namespace FreeLists

def push (bytes p : ℕ) : FreeLists → FreeLists
  | [] => [(bytes, [p])]
  | (key, list) :: lists =>
    if key = bytes then (key, list ++ [p]) :: lists
    else if bytes < key then (bytes, [p]) :: (key, list) :: lists
    else (key, list) :: push bytes p lists

def pop (bytes : ℕ) : FreeLists → Option (ℕ × FreeLists)
  | [] => none
  | (key, list) :: lists =>
    if key = bytes then list.getLast?.map fun p => (p, (key, list.dropLast) :: lists)
    else (pop bytes lists).map fun r => (r.1, (key, list) :: r.2)

def buffers (lists : FreeLists) : List Buffer := lists.flatMap fun entry => entry.2.map (·, entry.1)

end FreeLists

structure Pool where
  freeLists : FreeLists := []
  pooledBytes : ℕ := 0
  live : ℕ := 0
  hits : ℕ := 0
  misses : ℕ := 0

inductive Call
  | allocating (bytes : ℕ) (again : Bool)
  | counting (b : Buffer)
  | draining (inAcquire : Option ℕ)
  | returning (taken : List Buffer) (inAcquire : Option ℕ)
  | givingBack (b : Buffer)

inductive Event
  | allocated (b : Buffer)
  | freed (b : Buffer)
  | handedOut (b : Buffer)
  | released (b : Buffer)

def allocated : List Event → Multiset Buffer
  | [] => 0
  | .allocated b :: events => b ::ₘ allocated events
  | .freed b :: events => (allocated events).erase b
  | .handedOut _ :: events => allocated events
  | .released _ :: events => allocated events

def live : List Event → Multiset Buffer
  | [] => 0
  | .handedOut b :: events => b ::ₘ live events
  | .released b :: events => (live events).erase b
  | .allocated _ :: events => live events
  | .freed _ :: events => live events

structure Config where
  pool : Pool := {}
  calls : Multiset Call := 0
  events : List Event := []

structure Fresh (events : List Event) (b : Buffer) : Prop where
  fits : Lib.Buffers.Fits sizeLimit b
  apart : ∀ a ∈ allocated events, Disjoint (Lib.Buffers.bytes a) (Lib.Buffers.bytes b)

namespace Pool

def hit (pool : Pool) (bytes : ℕ) (lists : FreeLists) : Pool :=
  { pool with
    freeLists := lists
    pooledBytes := (pool.pooledBytes + (sizeLimit - bytes)) % sizeLimit
    hits := (pool.hits + 1) % sizeLimit
    live := (pool.live + 1) % sizeLimit }

def miss (pool : Pool) : Pool := { pool with misses := (pool.misses + 1) % sizeLimit }

def count (pool : Pool) : Pool := { pool with live := (pool.live + 1) % sizeLimit }

def uncount (pool : Pool) : Pool := { pool with live := pool.live - 1 }

def keep (pool : Pool) (b : Buffer) : Pool :=
  { pool with
    freeLists := pool.freeLists.push b.2 b.1
    pooledBytes := (pool.pooledBytes + b.2) % sizeLimit }

def empty (pool : Pool) : Pool := { pool with freeLists := [], pooledBytes := 0 }

end Pool

inductive Step (capacity : ℕ) : Config → Config → Prop
  | acquireHit {pool calls events} {bytes p : ℕ} {lists : FreeLists} (hbytes : bytes ≠ 0)
    (hpop : pool.freeLists.pop bytes = some (p, lists)) :
    Step capacity ⟨pool, calls, events⟩ ⟨pool.hit bytes lists, calls, .handedOut (p, bytes) :: events⟩
  | acquireMiss {pool calls events} {bytes : ℕ} (hbytes : bytes ≠ 0) (hpop : pool.freeLists.pop bytes = none) :
    Step capacity ⟨pool, calls, events⟩ ⟨pool.miss, .allocating bytes false ::ₘ calls, events⟩
  | alloc {pool calls events} {bytes p : ℕ} {again : Bool} (hfresh : Fresh events (p, bytes)) :
    Step capacity ⟨pool, .allocating bytes again ::ₘ calls, events⟩
      ⟨pool, .counting (p, bytes) ::ₘ calls, .allocated (p, bytes) :: events⟩
  | allocFails {pool calls events} {bytes : ℕ} :
    Step capacity ⟨pool, .allocating bytes false ::ₘ calls, events⟩ ⟨pool, .draining (some bytes) ::ₘ calls, events⟩
  | allocFailsAgain {pool calls events} {bytes : ℕ} :
    Step capacity ⟨pool, .allocating bytes true ::ₘ calls, events⟩ ⟨pool, calls, events⟩
  | count {pool calls events} {b : Buffer} :
    Step capacity ⟨pool, .counting b ::ₘ calls, events⟩ ⟨pool.count, calls, .handedOut b :: events⟩
  | releaseKeep {pool calls events} {b : Buffer} (hlive : b ∈ live events)
    (hroom : (pool.pooledBytes + b.2) % sizeLimit ≤ capacity) :
    Step capacity ⟨pool, calls, events⟩ ⟨pool.uncount.keep b, calls, .released b :: events⟩
  | releaseGiveBack {pool calls events} {b : Buffer} (hlive : b ∈ live events)
    (hroom : ¬ (pool.pooledBytes + b.2) % sizeLimit ≤ capacity) :
    Step capacity ⟨pool, calls, events⟩ ⟨pool.uncount, .givingBack b ::ₘ calls, .released b :: events⟩
  | giveBack {pool calls events} {b : Buffer} :
    Step capacity ⟨pool, .givingBack b ::ₘ calls, events⟩ ⟨pool, calls, .freed b :: events⟩
  | drain {pool calls events} : Step capacity ⟨pool, calls, events⟩ ⟨pool, .draining none ::ₘ calls, events⟩
  | take {pool calls events} {inAcquire : Option ℕ} :
    Step capacity ⟨pool, .draining inAcquire ::ₘ calls, events⟩
      ⟨pool.empty, .returning pool.freeLists.buffers inAcquire ::ₘ calls, events⟩
  | free {pool calls events} {b : Buffer} {taken : List Buffer} {inAcquire : Option ℕ} :
    Step capacity ⟨pool, .returning (b :: taken) inAcquire ::ₘ calls, events⟩
      ⟨pool, .returning taken inAcquire ::ₘ calls, .freed b :: events⟩
  | drained {pool calls events} :
    Step capacity ⟨pool, .returning [] none ::ₘ calls, events⟩ ⟨pool, calls, events⟩
  | retry {pool calls events} {bytes : ℕ} :
    Step capacity ⟨pool, .returning [] (some bytes) ::ₘ calls, events⟩ ⟨pool, .allocating bytes true ::ₘ calls, events⟩

def Reached (capacity : ℕ) (c : Config) : Prop := Relation.ReflTransGen (Step capacity) {} c

end Vx.DevicePool
