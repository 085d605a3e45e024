import Vx.Lib.Relocation
import Vx.Remote.Region
import Vx.Remote.ViewCopy

/-!
One dispatch to a worker: `vx_remote_client.h` stages the arguments and reads them back, `vx_agent.h` rebuilds them on
the worker. Messages arrive as they were sent, so an argument on the wire is the argument.
-/

namespace Vx.Remote

open Lib.Relocation (Program)

variable {β : Type}

structure Worker (β : Type) where
  id : ℕ
  table : Table
  memory : ℕ × ℕ → β
  maxReply : ℕ
  descriptorRoom : ℕ

def Worker.transfer (w : Worker β) (bytes : List β) : Option (ℕ × Worker β) :=
  match w.table.alloc w.id bytes.length with
  | none => none
  | some (handle, table) =>
    let new := w.table.regions.length
    some (handle, { w with
      table
      memory := fun place => if place.1 = new then (bytes[place.2]?).getD (w.memory place) else w.memory place })

def Worker.fetch (w : Worker β) (handle nbytes : ℕ) : Option (List β) :=
  match w.table.resolve handle with
  | none => none
  | some (r, o) =>
    match w.table.regions[r]? with
    | none => none
    | some region =>
      if nbytes > region.size - o ∨ nbytes > w.maxReply then none
      else some ((List.range nbytes).map fun k => w.memory (r, o + k))

section

/-- An argument of the call. A memref of rank `n` has a descriptor with `n` dimensions, and a slot holds one or not. -/
inductive Arg (β : Type)
  | scalar (kind : Dtype) (bytes : List β)
  | memref (elem : Dtype) (desc : Option Desc)
  | slot (elem : Dtype) (rank : ℕ) (desc : Option Desc)

inductive WireKind
  | scalar (kind : Dtype)
  | memref (elem : Dtype)
  | slot (elem : Dtype) (rank : ℕ)
deriving DecidableEq, Repr

structure WireArg (β : Type) where
  kind : WireKind
  handle : ℕ
  dims : List (ℤ × ℤ)
  scalar : List β

def maxStaged : ℕ := 64

structure Staged where
  handle : ℕ
  host : ℕ
  bytes : ℕ
  dense : Option Packed

inductive Refused
  | stop (why : Stop)
  | returnsZero
deriving DecidableEq, Repr

structure Encoding (β : Type) where
  worker : Worker β
  staged : List Staged
  views : List (View × ℕ)
  out : List (WireArg β)

variable (scratch : ℕ)

def remoteTransfer (w : Worker β) (bytes : List β) : Except Refused (ℕ × Worker β) :=
  if 24 + bytes.length > scratch then .error .returnsZero
  else match w.transfer bytes with
  | none => .error .returnsZero
  | some r => .ok r

variable [Zero β]

def stageEmpty (w : Worker β) (staged : List Staged) (elem : Dtype) : Except Refused (ℕ × Worker β × List Staged) :=
  if staged.length = maxStaged then .error .returnsZero
  else match remoteTransfer scratch w (List.replicate elem.bytes 0) with
  | .error e => .error e
  | .ok (handle, w) => .ok (handle, w, staged ++ [⟨handle, 0, 0, none⟩])

def encodeView (kind : WireKind) (elem : Dtype) (desc : Desc) (s : Encoding β) : Except Refused (Encoding β) :=
  if desc.dims.length > abiMaxRank ∨ s.views.length = maxStaged then .error .returnsZero
  else if !addrIsHandle (memrefData desc elem) then
    .ok { s with
      views := s.views ++ [(⟨desc, elem⟩, s.out.length)]
      out := s.out ++ [⟨kind, 0, desc.dims, []⟩] }
  else match memrefViewSpan desc.dims elem with
  | .ok 0 =>
    match stageEmpty scratch s.worker s.staged elem with
    | .error e => .error e
    | .ok (handle, worker, staged) => .ok { s with worker, staged, out := s.out ++ [⟨kind, handle, desc.dims, []⟩] }
  | _ => .ok { s with out := s.out ++ [⟨kind, memrefData desc elem, desc.dims, []⟩] }

def encodeArg (s : Encoding β) : Arg β → Except Refused (Encoding β)
  | .scalar kind bytes =>
    if kind.bytes = 0 then .error .returnsZero
    else .ok { s with out := s.out ++ [⟨.scalar kind, 0, [], bytes.take kind.bytes⟩] }
  | .memref _ none => .error .returnsZero
  | .memref elem (some desc) => encodeView scratch (.memref elem) elem desc s
  | .slot elem rank none => .ok { s with out := s.out ++ [⟨.slot elem rank, 0, [], []⟩] }
  | .slot elem rank (some desc) =>
    if desc.aligned = 0 then .ok { s with out := s.out ++ [⟨.slot elem rank, 0, [], []⟩] }
    else encodeView scratch (.slot elem rank) elem desc s

def stageSpan (mem : ℕ → β) (views : List View) (plan : Plan) (span : CopySpan) : List β × (ℕ → Staged) :=
  match span.packed views plan with
  | some packed =>
    ((List.range span.bytes).map (viewCopyGather packed.blocks mem fun _ => 0),
      fun handle => ⟨handle, span.start, span.bytes, some packed⟩)
  | none =>
    ((List.range span.bytes).map fun k => mem (span.start + k),
      fun handle => ⟨handle, span.start, span.bytes, none⟩)

def stageSpans (mem : ℕ → β) (views : List View) (plan : Plan) :
    List CopySpan → Worker β → List Staged → Except Refused (Worker β × List Staged)
  | [], w, staged => .ok (w, staged)
  | span :: spans, w, staged =>
    let (bytes, record) := stageSpan mem views plan span
    match remoteTransfer scratch w bytes with
    | .error e => .error e
    | .ok (handle, w) => stageSpans mem views plan spans w (staged ++ [record handle])

def nameView (plan : Plan) (firstSpan : ℕ) (s : Encoding β) (v : ℕ) (view : View × ℕ) : Except Refused (Encoding β) :=
  let write handle (s : Encoding β) : Encoding β := { s with
    out := s.out.modify view.2 fun a => { a with
      handle
      dims := plan.wireDims v a.dims } }
  match plan.of v with
  | none =>
    match stageEmpty scratch s.worker s.staged view.1.elem with
    | .error e => .error e
    | .ok (handle, worker, staged) => .ok (write handle { s with worker, staged })
  | some span =>
    match s.staged[firstSpan + span]? with
    | none => .error .returnsZero
    | some staged => .ok (write (staged.handle + plan.place v) s)

def nameViews (plan : Plan) (firstSpan : ℕ) : ℕ → List (View × ℕ) → Encoding β → Except Refused (Encoding β)
  | _, [], s => .ok s
  | v, view :: views, s =>
    match nameView scratch plan firstSpan s v view with
    | .error e => .error e
    | .ok s => nameViews plan firstSpan (v + 1) views s

def encodeAll : List (Arg β) → Encoding β → Except Refused (Encoding β)
  | [], s => .ok s
  | arg :: args, s =>
    match encodeArg scratch s arg with
    | .error e => .error e
    | .ok s => encodeAll args s

def remoteEncodeArgs (mem : ℕ → β) (w : Worker β) (args : List (Arg β)) : Except Refused (Encoding β) :=
  match encodeAll scratch args ⟨w, [], [], []⟩ with
  | .error e => .error e
  | .ok s =>
    match viewCopyPlan (s.views.map Prod.fst) with
    | .error why => .error (.stop why)
    | .ok plan =>
      if s.staged.length + plan.spans.length > maxStaged then .error .returnsZero
      else match stageSpans scratch mem (s.views.map Prod.fst) plan plan.spans s.worker s.staged with
      | .error e => .error e
      | .ok (worker, staged) => nameViews scratch plan s.staged.length 0 s.views { s with worker, staged }

end

inductive AgentArg (β : Type)
  | scalar (bytes : List β)
  | view (elem : Dtype) (region start : ℕ) (dims : List (ℤ × ℤ))
  | emptySlot

def agentDescBytes (rank : ℕ) : ℕ := 24 + 16 * rank

def rebuildView (t : Table) (elem : Dtype) (arg : WireArg β) : Option (AgentArg β) :=
  match t.resolve arg.handle with
  | none => none
  | some (r, o) =>
    match t.regions[r]?, memrefViewSpan arg.dims elem with
    | some region, .ok bytes =>
      if arg.dims.length > abiMaxRank ∨ bytes > region.size - o then none else some (.view elem r o arg.dims)
    | _, _ => none

def agentRebuildArg (t : Table) (arg : WireArg β) : Option (AgentArg β × ℕ) :=
  match arg.kind with
  | .scalar _ => some (.scalar arg.scalar, 0)
  | .memref elem => (rebuildView t elem arg).map fun a => (a, agentDescBytes arg.dims.length)
  | .slot elem rank =>
    if rank > abiMaxRank then none
    else if arg.handle = 0 then some (.emptySlot, agentDescBytes rank + agentDescBytes 0)
    else (rebuildView t elem arg).map fun a => (a, agentDescBytes rank + agentDescBytes 0)

def agentRebuildArgs (t : Table) (room : ℕ) : List (WireArg β) → ℕ → Option (List (AgentArg β))
  | [], _ => some []
  | arg :: args, cursor =>
    match agentRebuildArg t arg with
    | none => none
    | some (a, need) =>
      if cursor + need > room then none
      else (agentRebuildArgs t room args (cursor + need)).map (a :: ·)

inductive Given (β : Type)
  | scalar (bytes : List β)
  | view (elem : Dtype) (sizes : List ℤ)
  | emptySlot

abbrev Kernel (β : Type) := List (Given β) → Program β

def InView : List ℕ → List (ℤ × ℤ) → Bool
  | [], [] => true
  | i :: index, dim :: dims => i < dim.1 && InView index dims
  | _, _ => false

def elementOffset : List ℕ → List (ℤ × ℤ) → ℤ
  | i :: index, dim :: dims => i * dim.2 + elementOffset index dims
  | _, _ => 0

def Arg.view : Arg β → Option View
  | .scalar _ _ => none
  | .memref elem desc => desc.map fun desc => ⟨desc, elem⟩
  | .slot elem _ desc => desc.bind fun desc => if desc.aligned = 0 then none else some ⟨desc, elem⟩

def Arg.given (arg : Arg β) : Given β :=
  match arg with
  | .scalar kind bytes => .scalar (bytes.take kind.bytes)
  | arg =>
    match arg.view with
    | some v => .view v.elem (v.desc.dims.map Prod.fst)
    | none => .emptySlot

def AgentArg.given : AgentArg β → Given β
  | .scalar bytes => .scalar bytes
  | .view elem _ _ dims => .view elem (dims.map Prod.fst)
  | .emptySlot => .emptySlot

def locateHere (args : List (Arg β)) (arg : ℕ) (index : List ℕ) : Option (List ℕ) :=
  match (args[arg]?).bind Arg.view with
  | none => none
  | some v =>
    if InView index v.desc.dims then
      let first := v.desc.aligned + (v.desc.offset + elementOffset index v.desc.dims) * v.elem.bytes
      some ((List.range v.elem.bytes).map fun k : ℕ => (first + k).toNat)
    else none

def locateThere (args : List (AgentArg β)) (arg : ℕ) (index : List ℕ) : Option (List (ℕ × ℕ)) :=
  match args[arg]? with
  | some (.view elem region start dims) =>
    if InView index dims then
      let first := start + elementOffset index dims * elem.bytes
      some ((List.range elem.bytes).map fun k : ℕ => (region, (first + k).toNat))
    else none
  | _ => none

def runHere (kernel : Kernel β) (args : List (Arg β)) (mem : ℕ → β) : ℕ → β :=
  (kernel (args.map Arg.given)).run (locateHere args) mem

def runThere (kernel : Kernel β) (args : List (AgentArg β)) (w : Worker β) : Worker β :=
  { w with memory := (kernel (args.map AgentArg.given)).run (locateThere args) w.memory }

variable [Zero β]

def remoteFetchStaged (w : Worker β) (mem : ℕ → β) (s : Staged) : Option (ℕ → β) :=
  match s.dense with
  | some packed =>
    (w.fetch s.handle s.bytes).map fun bytes => viewCopyScatter packed.blocks (fun k => bytes.getD k 0) mem
  | none =>
    if s.bytes = 0 then some mem
    else (w.fetch s.handle s.bytes).map fun bytes a =>
      if s.host ≤ a ∧ a < s.host + s.bytes then bytes.getD (a - s.host) 0 else mem a

def fetchAll (w : Worker β) : List Staged → (ℕ → β) → Option (ℕ → β)
  | [], mem => some mem
  | s :: staged, mem =>
    match remoteFetchStaged w mem s with
    | none => none
    | some mem => fetchAll w staged mem

def remoteRun (kernel : Kernel β) (s : Encoding β) (mem : ℕ → β) : Option (ℕ → β) :=
  match agentRebuildArgs s.worker.table s.worker.descriptorRoom s.out 0 with
  | none => none
  | some args => fetchAll (runThere kernel args s.worker) s.staged mem

end Vx.Remote
