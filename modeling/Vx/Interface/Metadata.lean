import Vx.Interface.Codec

namespace Vx.Interface

open Pipeline (TypeId Word)
open Lib.Reader

def fnv1a64 (hash : Word) (bytes : List UInt8) : Word :=
  bytes.foldl (fun hash b => (hash ^^^ b.toBitVec.setWidth 64) * 0x100000001b3#64) hash

def computeModuleHash (modulePath : String) : Word :=
  fnv1a64 0xcbf29ce484222325#64 modulePath.toUTF8.data.toList

def vxlibMagic : List UInt8 := [86, 88, 76, 66]

def vxlibFormatTag : String := "vxlib-interface-v19"

structure TableReport where
  table : String
  encoded : ℕ
  skipped : List (String × String)
deriving DecidableEq, Repr

structure InterfaceEmitReport where
  tables : List TableReport

def sorted {K V : Type} [DecidableEq K] (le : K → K → Bool) (table : Table K V) : List (K × V) :=
  (table.entries.map fun entry => (entry.1, entry.2)).mergeSort fun a b => le a.1 b.1

def nameLe (a b : String) : Bool := !decide (b < a)

def wordsLe (a b : TypeId) : Bool := decide (a.words.toList ≤ b.words.toList)

def methodLe (a b : TypeId × String) : Bool :=
  if a.1 = b.1 then nameLe a.2 b.2 else wordsLe a.1 b.1

def emitTable {α : Type} (table : String) (encode : α → Except (String × String) (List UInt8)) (entries : List α) :
    List UInt8 × TableReport :=
  let written := entries.filterMap fun entry => (encode entry).toOption
  let skipped := entries.filterMap fun entry => match encode entry with
    | .ok _ => none
    | .error skip => some skip
  (Write.len written.length ++ written.flatten, ⟨table, written.length, skipped⟩)

section
variable {E : Type}

def nominalName (reg : Registry E) (gid : TypeId) : String :=
  match reg.layouts.table.lookup gid with
  | some definition => definition.name
  | none =>
    let w0 := gid.moduleId.toNat
    let w1 := gid.symbolId.toNat
    let w2 := gid.genericHash.toNat
    let w3 := gid.flags.toNat
    s!"[{w0}, {w1}, {w2}, {w3}]"

def writeModuleEntry (entry : String × TypeId) : List UInt8 := Write.sym entry.1 ++ Write.typeid entry.2

def writeModule (module : Word × Table String TypeId) : List UInt8 :=
  let entries := sorted nameLe module.2
  Write.u64 module.1 ++ (Write.len entries.length ++ entries.flatMap writeModuleEntry)

def writeEnum (entry : String × List String) : List UInt8 := Write.sym entry.1 ++ writeVariants entry.2

def encodeFn (entry : String × FnSig E) : Except (String × String) (List UInt8) :=
  match encodeSigRecord entry.2 with
  | .ok rec => .ok (Write.sym entry.1 ++ Write.typeid entry.2.gid ++ rec)
  | .error reason => .error (entry.1, reason)

def encodeMethod (reg : Registry E) (entry : (TypeId × String) × FnSig E) : Except (String × String) (List UInt8) :=
  match encodeSigRecord entry.2 with
  | .ok rec => .ok (Write.typeid entry.1.1 ++ Write.sym entry.1.2 ++ Write.typeid entry.2.gid ++ rec)
  | .error reason => .error (nominalName reg entry.1.1 ++ "." ++ entry.1.2, reason)

def encodeBody (entry : TypeId × FnBody E) : Except (String × String) (List UInt8) :=
  match writeFnBody entry.1 entry.2 with
  | .ok bytes => .ok bytes
  | .error reason => .error (entry.2.name, reason)

def encodeStruct (reg : Registry E) (entry : TypeId × StructFields E) : Except (String × String) (List UInt8) :=
  if entry.1 ∈ reg.structsWithInvariants then
    .error (nominalName reg entry.1, "it has an invariant, and an interface cannot carry one yet")
  else
    match writeStructFields entry.2 with
    | .ok rec => .ok (Write.typeid entry.1 ++ rec)
    | .error (field, reason) => .error (nominalName reg entry.1 ++ " (field '" ++ field ++ "')", reason)

def serializeRegistryInterfaceReporting (reg : Registry E) : List UInt8 × InterfaceEmitReport :=
  let modules := sorted (fun a b => decide (a ≤ b)) reg.moduleIndices
  let defs := (sorted wordsLe reg.layouts.table).map Prod.snd
  let fns := emitTable "fn_sigs" encodeFn (sorted nameLe reg.fnSigs)
  let methods := emitTable "methods" (encodeMethod reg) (sorted methodLe reg.methods)
  let bodies := emitTable "bodies" encodeBody (sorted wordsLe reg.bodies)
  let structs := emitTable "structs" (encodeStruct reg) (sorted wordsLe reg.structs)
  let enums := sorted nameLe reg.enumVariants
  (vxlibMagic ++ Write.u64 (computeModuleHash vxlibFormatTag) ++
    Write.len modules.length ++ modules.flatMap writeModule ++
    Write.len defs.length ++ defs.flatMap writeTypeDefinition ++
    fns.1 ++ methods.1 ++ bodies.1 ++ structs.1 ++
    Write.len enums.length ++ enums.flatMap writeEnum,
   ⟨[fns.2, methods.2, bodies.2, structs.2, ⟨"enums", enums.length, []⟩]⟩)

def serializeRegistryInterface (reg : Registry E) : List UInt8 :=
  (serializeRegistryInterfaceReporting reg).1

end

def Table.insertAll {K V : Type} [DecidableEq K] (table : Table K V) (entries : List (K × V)) : Table K V :=
  entries.foldl (fun table entry => table.insert entry.1 entry.2) table

def Table.ofList {K V : Type} [DecidableEq K] (entries : List (K × V)) : Table K V :=
  Table.insertAll ∅ entries

variable {E : Type}

def readModuleEntry : Read (String × TypeId) := do
  let name ← Read.sym
  let gid ← Read.typeid
  return (name, gid)

def readModule : Read (Word × Table String TypeId) := do
  let modHash ← Read.u64
  let entries ← Read.grown readModuleEntry
  return (modHash, .ofList entries)

def readFn (stack : ℕ) : Read (String × FnSig E) := do
  let name ← Read.sym
  let gid ← Read.typeid
  return (name, ← readSigRecord stack gid)

def readMethod (stack : ℕ) : Read ((TypeId × String) × FnSig E) := do
  let recv ← Read.typeid
  let name ← Read.sym
  let gid ← Read.typeid
  return ((recv, name), ← readSigRecord stack gid)

def readStruct (stack : ℕ) : Read (TypeId × StructFields E) := do
  let gid ← Read.typeid
  return (gid, ← readStructFields stack)

def readTables (stack : ℕ) : Read (Registry E) := do
  let modules ← Read.grown readModule
  let defs ← Read.grown readTypeDefinition
  let fns ← Read.grown (readFn stack)
  let methods ← Read.grown (readMethod stack)
  let bodies ← Read.grown (readFnBody stack)
  let structs ← Read.grown (readStruct stack)
  let enums ← Read.grown readEnum
  let layouts := defs.foldl Layouts.insert .empty
  return {
    aggregateIdentities := .fromLayouts layouts
    layouts
    moduleIndices := .ofList modules
    fnSigs := .ofList fns
    methods := .ofList methods
    bodies := .ofList bodies
    enumVariants := .ofList enums
    structs := .ofList structs
    structsWithInvariants := ∅
    mergeState := {}
    layoutByBaseName := .build layouts }

def readHeader : Read Unit := do
  let magic ← Read.take 4
  if magic.1 ≠ vxlibMagic then .fail "vxlib: bad magic (not a Vx module interface)"
  else do
    let stamp ← Read.u64
    if stamp ≠ computeModuleHash vxlibFormatTag then
      .fail "vxlib: format version mismatch (stale or incompatible artifact)"
    else return ()

def readRegistryInterface (stack : ℕ) : Read (Registry E) := do
  readHeader
  readTables stack

def deserializeRegistryInterface (m : Machine Element) (stack : ℕ) (bytes : List UInt8) :
    Except Stop (Registry E) × Cursor Element :=
  run m (readRegistryInterface stack) ⟨0, bytes, []⟩

end Vx.Interface
