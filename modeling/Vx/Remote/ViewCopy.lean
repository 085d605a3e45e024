import Vx.Lib.Grouping
import Vx.Lib.Strided

/-!
The views of one call and how they are copied: `vx_view_copy.h`, with the view helpers of `vx_hardware_runtime.h`.
-/

namespace Vx.Remote

open Function (update)
open Lib.Grouping (Interval root join)
open Lib.Strided (Layout offset count next)

inductive Dtype
  | unknown | i1 | i8 | i16 | i32 | i64 | f32 | f64 | f16 | bf16
deriving DecidableEq, Repr

def Dtype.bytes : Dtype → ℕ
  | .unknown => 0
  | .i1 | .i8 => 1
  | .i16 | .f16 | .bf16 => 2
  | .i32 | .f32 => 4
  | .i64 | .f64 => 8

theorem Dtype.bytes_le (elem : Dtype) : elem.bytes ≤ 8 := by
  cases elem <;> decide

structure Desc where
  aligned : ℕ
  offset : ℤ
  dims : List (ℤ × ℤ)
deriving DecidableEq

def abiMaxRank : ℕ := 8

def addressSpace : ℕ := 2 ^ 64

def memrefData (desc : Desc) (elem : Dtype) : ℕ :=
  ((desc.aligned + desc.offset * elem.bytes) % addressSpace).toNat

inductive ViewFault
  | unknownElement
  | negative (dim : ℕ)
  | tooManyElements
  | tooManyBytes
deriving DecidableEq, Repr

def mulU64 (a b : ℕ) : Option ℕ := if a * b < addressSpace then some (a * b) else none

def addU64 (a b : ℕ) : Option ℕ := if a + b < addressSpace then some (a + b) else none

def memrefViewSpan (dims : List (ℤ × ℤ)) (elem : Dtype) : Except ViewFault ℕ :=
  if elem.bytes = 0 then .error .unknownElement
  else match dims.findIdx? fun dim => dim.1 < 0 || dim.2 < 0 with
  | some dim => .error (.negative dim)
  | none =>
    if dims.any fun dim => dim.1 = 0 then .ok 0
    else match dims.foldlM (fun last dim => (mulU64 (dim.1 - 1).toNat dim.2.toNat).bind (addU64 last)) 0 with
    | none => .error .tooManyElements
    | some last =>
      match addU64 last 1 with
      | none => .error .tooManyElements
      | some count =>
        match mulU64 count elem.bytes with
        | none => .error .tooManyBytes
        | some bytes => .ok bytes

structure View where
  desc : Desc
  elem : Dtype
deriving DecidableEq

def View.layout (v : View) : Layout := v.desc.dims.map fun dim => (dim.1.toNat, dim.2.toNat)

def memoryEnd : ℕ := 2 ^ 47

def View.InMemory (v : View) : Prop :=
  match memrefViewSpan v.desc.dims v.elem with
  | .error _ => True
  | .ok bytes => bytes = 0 ∨ v.desc.aligned + v.desc.offset.toNat * v.elem.bytes + bytes ≤ memoryEnd

instance (v : View) : Decidable v.InMemory :=
  match h : memrefViewSpan v.desc.dims v.elem with
  | .error _ => isTrue (by simp [View.InMemory, h])
  | .ok bytes => decidable_of_iff
      (bytes = 0 ∨ v.desc.aligned + v.desc.offset.toNat * v.elem.bytes + bytes ≤ memoryEnd)
      (by simp [View.InMemory, h])

section
variable (size stride : ℕ → ℤ)

def mulI64 (a b : ℤ) : ℤ := (a * b).bmod addressSpace

def sink (d : ℕ) : List ℕ → List ℕ
  | [] => [d]
  | e :: es => if stride d < stride e then e :: sink d es else d :: e :: es

def sortDims (dims : List ℕ) : List ℕ := dims.foldl (fun sorted d => sink stride d sorted) []

def startsPast : List ℕ → Bool
  | d :: e :: ds => !(stride d < mulI64 (stride e) (size e)) && startsPast (e :: ds)
  | _ => true

def packable (v : View) (bytes : ℕ) : Option ℕ :=
  let size d := (v.desc.dims.getD d (0, 0)).1
  let stride d := (v.desc.dims.getD d (0, 0)).2
  let dims := (List.range v.desc.dims.length).filter fun d => 1 < size d
  let dense := count v.layout * v.elem.bytes % addressSpace
  if abiMaxRank < v.desc.dims.length then none
  else if dims.any fun d => stride d ≤ 0 then none
  else if !startsPast size stride (sortDims stride dims) then none
  else if dense < bytes then some dense else none

def denseStride (dims : List (ℤ × ℤ)) (d : ℕ) : ℤ := ((dims.drop (d + 1)).map Prod.fst).prod

def denseDims (dims : List (ℤ × ℤ)) : List (ℤ × ℤ) := dims.mapIdx fun d dim => (dim.1, denseStride dims d)

inductive Stop
  | broken (why : ViewFault)
  | doesNotFit (view : ℕ)
deriving DecidableEq, Repr

def measure (i : ℕ) (v : View) : Except Stop (Option Interval) :=
  match memrefViewSpan v.desc.dims v.elem with
  | .error why => .error (.broken why)
  | .ok bytes =>
    if bytes = 0 then .ok none
    else if v.desc.offset < 0 then .error (.doesNotFit i)
    else match (mulU64 v.desc.offset.toNat v.elem.bytes).bind (addU64 v.desc.aligned) with
    | none => .error (.doesNotFit i)
    | some first =>
      match addU64 first bytes with
      | none => .error (.doesNotFit i)
      | some _ => .ok (some (first, bytes))

def measureAll : ℕ → List View → Except Stop (List (Option Interval))
  | _, [] => .ok []
  | i, v :: vs =>
    match measure i v with
    | .error stop => .error stop
    | .ok m =>
      match measureAll (i + 1) vs with
      | .error stop => .error stop
      | .ok ms => .ok (m :: ms)

variable (views : ℕ → Option Interval)

def joinViews (link : ℕ → ℕ) (i j : ℕ) : ℕ → ℕ :=
  match views i, views j with
  | some a, some b => if a.1 ≥ b.1 + b.2 ∨ b.1 ≥ a.1 + a.2 then link else join link i j
  | _, _ => link

def groups (n : ℕ) : ℕ → ℕ :=
  (List.range n).foldl (fun link i => (List.range i).foldl (fun link j => joinViews views link i j) link) fun i => i

structure Spans where
  spans : ℕ → Interval
  num : ℕ
  of : ℕ → Option ℕ

def widen (s v : Interval) : Interval :=
  let stop := if v.1 + v.2 > s.1 + s.2 then v.1 + v.2 else s.1 + s.2
  let start := if v.1 < s.1 then v.1 else s.1
  (start, stop - start)

def giveSpan (link : ℕ → ℕ) (given : Spans) (i : ℕ) : Spans :=
  match views i with
  | none => given
  | some v =>
    if root link i = i then
      { spans := update given.spans given.num v, num := given.num + 1, of := update given.of i (some given.num) }
    else
      let s := (given.of (root link i)).getD 0
      { given with spans := update given.spans s (widen (given.spans s) v), of := update given.of i (some s) }

def giveSpans (n : ℕ) : Spans :=
  (List.range n).foldl (giveSpan views (groups views n)) ⟨fun _ => (0, 0), 0, fun _ => none⟩

structure CopySpan where
  start : ℕ
  bytes : ℕ
  view : Option ℕ

structure Plan where
  starts : ℕ → ℕ
  of : ℕ → Option ℕ
  place : ℕ → ℕ
  packed : ℕ → Bool
  spans : List CopySpan

def Plan.wireDims (plan : Plan) (v : ℕ) (dims : List (ℤ × ℤ)) : List (ℤ × ℤ) :=
  if plan.packed v then denseDims dims else dims

def copySpan (vs : List View) (given : Spans) (s : ℕ) : CopySpan :=
  let whole : CopySpan := ⟨(given.spans s).1, (given.spans s).2, none⟩
  match (List.range vs.length).filter fun i => given.of i = some s with
  | [only] =>
    match vs[only]?, views only with
    | some v, some m =>
      match packable v m.2 with
      | some dense => { whole with bytes := dense, view := some only }
      | none => whole
    | _, _ => whole
  | _ => whole

def Spans.plan (vs : List View) (given : Spans) : Plan :=
  let spans := (List.range given.num).map (copySpan views vs given)
  { starts := fun i => ((views i).map Prod.fst).getD 0
    of := given.of
    place := fun i =>
      match views i, given.of i with
      | some m, some s => m.1 - (given.spans s).1
      | _, _ => 0
    packed := fun i => spans.any fun span => span.view = some i
    spans }

def viewCopyPlan (vs : List View) : Except Stop Plan :=
  match measureAll 0 vs with
  | .error stop => .error stop
  | .ok ms =>
    let views i := (ms[i]?).join
    .ok ((giveSpans views vs.length).plan views vs)

end

structure Block where
  dense : ℕ
  view : ℕ
  width : ℕ
  pitch : ℕ
  height : ℕ

def blockLoop (dims : Layout) (block : ℕ → List ℕ → Block) (bytes : ℕ) : ℕ → List ℕ → ℕ → List Block
  | 0, _, _ => []
  | fuel + 1, idx, dense =>
    block dense idx ::
      match next dims idx with
      | some idx => blockLoop dims block bytes fuel idx (dense + bytes)
      | none => []

def viewCopyBlocks (start b : ℕ) (layout : Layout) : List Block :=
  let dims := layout.filter fun dim => 1 < dim.1
  match dims.getLast? with
  | none => [⟨0, start, b, b, 1⟩]
  | some inner =>
    -- A last dimension with a stride of 1 is one run.
    let width := if inner.2 = 1 then inner.1 * b else b
    let rows := if inner.2 = 1 then dims.dropLast else dims
    match rows.getLast? with
    | none => [⟨0, start, width, width, 1⟩]
    | some row =>
      let outer := rows.dropLast
      let block dense idx := ⟨dense, start + offset idx outer * b, width, row.2 * b, row.1⟩
      blockLoop outer block (width * row.1) (count outer) (outer.map fun _ => 0) 0

structure Packed where
  start : ℕ
  elem : Dtype
  layout : Layout

def CopySpan.packed (views : List View) (plan : Plan) (span : CopySpan) : Option Packed :=
  span.view.bind fun v => (views[v]?).map fun view => ⟨plan.starts v, view.elem, view.layout⟩

def Packed.blocks (p : Packed) : List Block := viewCopyBlocks p.start p.elem.bytes p.layout

variable {β : Type}

def Block.pairs (block : Block) : List (ℕ × ℕ) :=
  (List.range block.height).flatMap fun h =>
    (List.range block.width).map fun w => (block.dense + h * block.width + w, block.view + h * block.pitch + w)

def gatherBlock (mem : ℕ → β) (dense : ℕ → β) (block : Block) : ℕ → β :=
  block.pairs.foldl (fun dense p => update dense p.1 (mem p.2)) dense

def scatterBlock (dense : ℕ → β) (mem : ℕ → β) (block : Block) : ℕ → β :=
  block.pairs.foldl (fun mem p => update mem p.2 (dense p.1)) mem

def viewCopyGather (blocks : List Block) (mem dense : ℕ → β) : ℕ → β := blocks.foldl (gatherBlock mem) dense

def viewCopyScatter (blocks : List Block) (dense mem : ℕ → β) : ℕ → β := blocks.foldl (scatterBlock dense) mem

end Vx.Remote
