import Vx.Interface.Metadata
import Vx.Pipeline.Barrier

namespace Vx.Pipeline

inductive InternMode
  | deferred | content
deriving DecidableEq, Repr

def genericDigest (args : List TypeId) : Word :=
  let hash := args.foldl (fun h a => a.words.toList.foldl (fun h w => (h ^^^ w) * 0x100000001b3#64) h)
    0xcbf29ce484222325#64
  hash &&& indexMask

def TypeId.setGenericDigest (id : TypeId) (digest : Word) : TypeId :=
  let word3 := (id.flags ||| (isGenericInstFlag ||| genericDigestFlag)) &&& ~~~localDeferredBit
  (id.withWord2 (escapeHatchMask ||| (digest &&& indexMask))).withWord3 word3

def mintGenericInMode (mode : InternMode) (worker : LocalWorkerState) (base : TypeId) (args : List TypeId) :
    TypeId × LocalWorkerState :=
  match mode with
  | .content => (base.setGenericDigest (genericDigest args), worker)
  | .deferred =>
    let start := worker.localGenericsArena.length
    let offsetIndex := BitVec.ofNat 64 worker.localGenericsOffsets.length
    (base.setArenaIndex offsetIndex .generics .localScope,
      { worker with
        localGenericsArena := worker.localGenericsArena ++ args
        localGenericsOffsets := worker.localGenericsOffsets ++ [(start, args.length)] })

structure Rendering (E : Type) where
  element : ElementType → String
  constant : E → String
  identifier : E → Option String

section
variable {E : Type} (names : Rendering E)

def computeSymbolHash (name : String) : Word :=
  Interface.fnv1a64 (Interface.fnv1a64 0xcbf29ce484222325#64 [0]) name.toUTF8.data.toList

def builtinGid (name : String) : TypeId := ⟨#v[0, computeSymbolHash name, 0, 0]⟩

def scalarGid (elem : ElementType) : TypeId := builtinGid ("$prim::" ++ names.element elem)

def constIdentityKey : Interface.Expr E → String
  | .number value _ _ => value
  | .other expr => names.constant expr

def tensorDimString : Interface.Dim E → Option String
  | .static (.number value _ _) => some value
  | .static (.other expr) => names.identifier expr
  | .dyn => some "?"

def tensorGidOf (elem : ElementType) (dims : List (Interface.Dim E)) : Option TypeId :=
  match elem with
  | .generic _ => none
  | elem => do
    let shape ← dims.mapM (tensorDimString names)
    return builtinGid ("$tensor::" ++ names.element elem ++ "::[" ++ ",".intercalate shape ++ "]")

def TypeId.withDigest (id : TypeId) (args : List TypeId) : TypeId :=
  id.withWord2 (escapeHatchMask ||| genericDigest args)

mutual

def nominalGid : Interface.Ty E → Option TypeId
  | .struct _ id | .enum _ id => id
  | .scalar elem => some (scalarGid names elem)
  | .tensor elem dims _ => tensorGidOf names elem dims
  | .ref inner _ | .borrow inner _ _ _ | .pointer inner _ _ | .verified inner | .pinned inner _ => nominalGid inner
  | .genericInstance base args => do
    let baseId ← nominalGid base
    let argIds ← nominalGids args
    let id := baseId.withDigest argIds
    return id.withWord3 (id.flags ||| isGenericInstFlag)
  | .const expr => some (builtinGid ("$const::" ++ constIdentityKey names expr))
  | .generic name _ => some (builtinGid ("$typaram::" ++ name))
  | .simd elem lanes => some (builtinGid ("$simd::" ++ names.element elem ++ "::" ++ toString lanes.toNat))
  | .function params ret _ => do
    let ids ← nominalGids params
    let retId ← nominalGid ret
    return (builtinGid "$fnty").withDigest (ids ++ [retId])
  | .closure params ret => do
    let ids ← nominalGids params
    let retId ← nominalGid ret
    return (builtinGid "$closurety").withDigest (ids ++ [retId])
  | .matrix => some (builtinGid "$matrix")
  | .module _ _ _ | .unknown => none

def nominalGids : List (Interface.Ty E) → Option (List TypeId)
  | [] => some []
  | ty :: tys => do
    let id ← nominalGid ty
    let ids ← nominalGids tys
    return id :: ids

end

def LocalWorkerState.push (worker : LocalWorkerState) (id : TypeId) : LocalWorkerState :=
  { worker with localTypeStream := worker.localTypeStream ++ [id] }

variable (mode : InternMode)

mutual

def emitTypeGid : Interface.Ty E → LocalWorkerState → LocalWorkerState
  | .struct _ (some id), worker | .enum _ (some id), worker => worker.push id
  | .tensor elem dims _, worker =>
    match tensorGidOf names elem dims with
    | some id => worker.push id
    | none => worker
  | .genericInstance base args, worker =>
    match nominalGid names base, nominalGids names args with
    | some baseId, some argIds =>
      let (deferred, worker) := mintGenericInMode mode worker baseId argIds
      worker.push deferred
    | _, _ => worker
  | .ref inner _, worker | .borrow inner _ _ _, worker | .pointer inner _ _, worker | .verified inner, worker
  | .pinned inner _, worker => emitTypeGid inner worker
  | .function params ret _, worker | .closure params ret, worker => emitTypeGid ret (emitTypeGids params worker)
  | _, worker => worker

def emitTypeGids : List (Interface.Ty E) → LocalWorkerState → LocalWorkerState
  | [], worker => worker
  | ty :: tys, worker => emitTypeGids tys (emitTypeGid ty worker)

end

end

inductive Emission
  | plain (id : TypeId)
  | inst (base : TypeId) (args : List TypeId)

def emit (mode : InternMode) (worker : LocalWorkerState) : Emission → LocalWorkerState
  | .plain id => worker.push id
  | .inst base args => (mintGenericInMode mode worker base args).2.push (mintGenericInMode mode worker base args).1

variable {E : Type} (names : Rendering E)

mutual

def emissions : Interface.Ty E → List Emission
  | .struct _ (some id) | .enum _ (some id) => [.plain id]
  | .tensor elem dims _ => (tensorGidOf names elem dims).toList.map .plain
  | .genericInstance base args =>
    match nominalGid names base, nominalGids names args with
    | some baseId, some argIds => [.inst baseId argIds]
    | _, _ => []
  | .ref inner _ | .borrow inner _ _ _ | .pointer inner _ _ | .verified inner | .pinned inner _ => emissions inner
  | .function params ret _ | .closure params ret => emissionsOf params ++ emissions ret
  | _ => []

def emissionsOf : List (Interface.Ty E) → List Emission
  | [] => []
  | ty :: tys => emissions ty ++ emissionsOf tys

end

variable (mode : InternMode)

mutual

theorem emitTypeGid_eq (ty : Interface.Ty E) (worker : LocalWorkerState) :
    emitTypeGid names mode ty worker = (emissions names ty).foldl (emit mode) worker := by
  cases ty with
  | struct name id | enum name id => cases id <;> simp [emitTypeGid, emissions, emit]
  | tensor elem dims placement =>
    simp only [emitTypeGid, emissions]
    cases tensorGidOf names elem dims <;> rfl
  | genericInstance base args =>
    simp only [emitTypeGid, emissions]
    cases nominalGid names base with
    | none => rfl
    | some baseId => cases nominalGids names args <;> rfl
  | ref inner | borrow inner | pointer inner | verified inner | pinned inner =>
    simp only [emitTypeGid, emissions]
    exact emitTypeGid_eq inner worker
  | function params ret | closure params ret =>
    simp only [emitTypeGid, emissions, List.foldl_append]
    rw [emitTypeGids_eq params worker]
    exact emitTypeGid_eq ret _
  | _ => simp [emitTypeGid, emissions]

theorem emitTypeGids_eq (tys : List (Interface.Ty E)) (worker : LocalWorkerState) :
    emitTypeGids names mode tys worker = (emissionsOf names tys).foldl (emit mode) worker := by
  cases tys with
  | nil => rfl
  | cons ty tys =>
    simp only [emitTypeGids, emissionsOf, List.foldl_append]
    rw [emitTypeGid_eq ty worker]
    exact emitTypeGids_eq tys _

end

end Vx.Pipeline
