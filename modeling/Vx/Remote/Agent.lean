import Vx.Remote.Client
import Vx.Remote.Wire

/-!
The arguments that a worker rebuilds, word by word: `vx_agent.h`, with the reader of `vx_dispatch_plan.h`. A word of
the storage is an integer, an address in a region, or the place of another word of the storage.
-/

namespace Vx.Remote

open Function (update)

inductive Word
  | int (v : ℤ)
  | data (region start : ℕ)
  | place (word : ℕ)
deriving DecidableEq

structure Storage where
  words : ℕ → Word
  descPtrs : ℕ → ℕ
  cursor : ℕ

def Storage.initial (memory : ℕ → Word) : Storage := ⟨memory, fun _ => 0, 0⟩

def descWords (rank : ℕ) : ℕ := 3 + 2 * rank

def overlay (words : ℕ → Word) (start : ℕ) (run : List Word) : ℕ → Word :=
  fun k => if k < start then words k else (run[k - start]?).getD (words k)

def writeDesc (words : ℕ → Word) (desc : ℕ) (data : Word) (arg : TaggedArg) : ℕ → Word :=
  overlay words desc ([data, data, .int 0] ++ arg.sizes.map .int ++ arg.strides.map .int)

section
variable (t : Table) (capacity : ℕ)

def TaggedArg.dims (arg : TaggedArg) : List (ℤ × ℤ) := arg.sizes.zip arg.strides

def TaggedArg.elem (arg : TaggedArg) : Dtype := .ofCode (abiElem arg.tag)

def agentViewFits (arg : TaggedArg) (region : Region) (start : ℕ) : Bool :=
  if arg.rank > abiMaxRank then false
  else match memrefViewSpan arg.dims arg.elem with
  | .error _ => false
  | .ok bytes => bytes ≤ region.size - start

def agentData (arg : TaggedArg) : Option Word :=
  match t.resolve arg.handle with
  | none => none
  | some (r, start) =>
    match t.regions[r]? with
    | none => none
    | some region => if agentViewFits arg region start then some (.data r start) else none

def slotWords (words : ℕ → Word) (inner held : ℕ) : ℕ → Word :=
  overlay (overlay words inner (List.replicate (descWords held + descWords 0) (.int 0)))
    (inner + descWords held) [.place inner, .place inner]

/-- Models `vx_agent_rebuild_arg`. The words of a slot are laid out at the rank of its tag, and written at the rank of its
body. -/
def rebuildTagged (i : ℕ) (arg : TaggedArg) (s : Storage) : Option Storage :=
  if abiIsSlot arg.tag then
    let held := abiRank arg.tag
    let inner := s.cursor
    let outer := inner + descWords held
    let words := slotWords s.words inner held
    let place words : Storage := ⟨words, update s.descPtrs i outer, outer + descWords 0⟩
    if held > abiMaxRank ∨ 8 * s.cursor + agentDescBytes held + agentDescBytes 0 > capacity then none
    else if arg.handle = 0 then some (place words)
    else (agentData t arg).map fun data => place (writeDesc words inner data arg)
  else if abiKind arg.tag ≠ abiKindMemref then some s
  else match agentData t arg with
  | none => none
  | some data =>
    if arg.rank > abiMaxRank ∨ 8 * s.cursor + agentDescBytes arg.rank > capacity then none
    else some ⟨writeDesc s.words s.cursor data arg, update s.descPtrs i s.cursor, s.cursor + descWords arg.rank⟩

def rebuildAllTagged : ℕ → List TaggedArg → Storage → Option Storage
  | _, [], s => some s
  | i, arg :: args, s => (rebuildTagged t capacity i arg s).bind (rebuildAllTagged (i + 1) args)

def agentReceive (memory : ℕ → Word) (body : Bytes) : Option (List TaggedArg × Storage) := do
  let ((_, numArgs), r) ← wireGetDispatch body
  let (args, _) ← wireGetArgs numArgs r
  let s ← rebuildAllTagged t capacity 0 args (.initial memory)
  return (args, s)

end

def operandDesc (s : Storage) (i tag : ℕ) : Option ℕ :=
  if abiIsSlot tag then
    match s.words (s.descPtrs i + 1) with
    | .place desc => some desc
    | _ => none
  else some (s.descPtrs i)

def readDim (words : ℕ → Word) (desc rank d : ℕ) : Option (ℤ × ℤ) :=
  match words (desc + 3 + d), words (desc + 3 + rank + d) with
  | .int size, .int stride => some (size, stride)
  | _, _ => none

def readDims (words : ℕ → Word) (desc rank : ℕ) : Option (List (ℤ × ℤ)) :=
  (List.range rank).mapM (readDim words desc rank)

def readDesc (s : Storage) (i tag : ℕ) : Option (Word × Word × List (ℤ × ℤ)) := do
  let desc ← operandDesc s i tag
  let dims ← readDims s.words desc (abiRank tag)
  return (s.words (desc + 1), s.words (desc + 2), dims)

end Vx.Remote
