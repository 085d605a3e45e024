import Vx.Interface.Registry
import Vx.Lib.Reader

namespace Vx.Interface

open Pipeline (TypeId Word localDeferredBit)
open Lib.Reader

inductive Element
  | field | typeId | type | dim | instruction | variant
deriving DecidableEq, Repr

instance : Encoded Element where
  least
    | .field => 25
    | .typeId => 32
    | .type => 1
    | .dim => 1
    | .instruction => 40
    | .variant => 16
  least_pos kind := by cases kind <;> decide

abbrev Read := Program Element

namespace Write

def u64 (v : Word) : List UInt8 := wordBytes v

def len (n : ℕ) : List UInt8 := u64 (BitVec.ofNat 64 n)

def bytes (b : List UInt8) : List UInt8 := len b.length ++ b

def sym (s : String) : List UInt8 := bytes s.toUTF8.data.toList

def typeid (t : TypeId) : List UInt8 := t.words.toList.flatMap u64

end Write

namespace Read

def take (n : ℕ) : Read (Bytes n) :=
  Program.take n (fun pos => s!"vxlib: unexpected end of buffer (need {n} at {pos})") .done

def u8 : Read UInt8 := do
  let bytes ← take 1
  return bytes.1.head (List.ne_nil_of_length_pos (by rw [bytes.2]; decide))

def u64 : Read Word := do
  let bytes ← take 8
  return bytesWord bytes.1

def bytes : Read (List UInt8) := do
  let n ← u64
  let bytes ← take n.toNat
  return bytes.1

/-- The ranges of the bytes after the first one of a character. -/
def continuations (first : UInt8) : List (UInt8 × UInt8) :=
  if 0xC2 ≤ first ∧ first ≤ 0xDF then [(0x80, 0xBF)]
  else if first = 0xE0 then [(0xA0, 0xBF), (0x80, 0xBF)]
  else if first = 0xED then [(0x80, 0x9F), (0x80, 0xBF)]
  else if 0xE1 ≤ first ∧ first ≤ 0xEF then [(0x80, 0xBF), (0x80, 0xBF)]
  else if first = 0xF0 then [(0x90, 0xBF), (0x80, 0xBF), (0x80, 0xBF)]
  else if 0xF1 ≤ first ∧ first ≤ 0xF3 then [(0x80, 0xBF), (0x80, 0xBF), (0x80, 0xBF)]
  else if first = 0xF4 then [(0x80, 0x8F), (0x80, 0xBF), (0x80, 0xBF)]
  else []

def errorLen (good : ℕ) : List (UInt8 × UInt8) → List UInt8 → Option ℕ
  | [], _ => some good
  | _ :: _, [] => none
  | (low, high) :: ranges, b :: bytes =>
    if low ≤ b ∧ b ≤ high then errorLen (good + 1) ranges bytes else some good

def utf8Error (b : List UInt8) : String :=
  let validUpTo := ((List.range b.length).reverse.find? fun n => isText (b.take n)).getD 0
  match b.drop validUpTo with
  | [] => ""
  | first :: rest =>
    match errorLen 1 (continuations first) rest with
    | some len => s!"invalid utf-8 sequence of {len} bytes from index {validUpTo}"
    | none => s!"incomplete utf-8 byte sequence from index {validUpTo}"

def text (b : List UInt8) : Read String :=
  match String.fromUTF8? ⟨b.toArray⟩ with
  | some s => return s
  | none =>
    let e := utf8Error b
    .fail s!"vxlib: bad utf-8 symbol: {e}"

def sym : Read String := do
  let b ← bytes
  text b

def typeid : Read TypeId := do
  let w0 ← u64
  let w1 ← u64
  let w2 ← u64
  let w3 ← u64
  return ⟨#v[w0, w1, w2, w3]⟩

def withCapacity (kind : Element) (n : ℕ) : Read Unit := .reserve kind n (.done ())

def vec {α : Type} (kind : Element) (item : Read α) : Read (List α) := do
  let n ← u64
  withCapacity kind n.toNat
  Program.many n.toNat item

def grown {α : Type} (item : Read α) : Read (List α) := do
  let n ← u64
  Program.many n.toNat item

end Read

def writeElementType (e : ElementType) : List UInt8 :=
  let tag : UInt8 := match e with
    | .f16 => 0 | .f32 => 1 | .f64 => 2 | .bf16 => 3 | .i4 => 4 | .u4 => 5 | .i8 => 6 | .u8 => 7 | .i16 => 8
    | .u16 => 9 | .i32 => 10 | .u32 => 11 | .i64 => 12 | .u64 => 13 | .i128 => 14 | .u128 => 15 | .bool => 16
    | .generic _ => 17 | .f8e4m3 => 18 | .f8e5m2 => 19 | .f4e2m1 => 20 | .usize => 21
  [tag] ++ match e with
    | .generic s => Write.sym s
    | _ => []

def readElementType : Read ElementType := do
  let t ← Read.u8
  match t.toNat with
  | 0 => return .f16
  | 1 => return .f32
  | 2 => return .f64
  | 3 => return .bf16
  | 4 => return .i4
  | 5 => return .u4
  | 6 => return .i8
  | 7 => return .u8
  | 8 => return .i16
  | 9 => return .u16
  | 10 => return .i32
  | 11 => return .u32
  | 12 => return .i64
  | 13 => return .u64
  | 14 => return .i128
  | 15 => return .u128
  | 16 => return .bool
  | 17 => return .generic (← Read.sym)
  | 18 => return .f8e4m3
  | 19 => return .f8e5m2
  | 20 => return .f4e2m1
  | 21 => return .usize
  | _ => .fail s!"vxlib: bad ElementType tag {t}"

def writeFieldTy : FieldTy → List UInt8
  | .scalar e => [0] ++ writeElementType e
  | .nominal id => [1] ++ Write.typeid id
  | .opaqueTy => [2]
  | .tensor e rank => [3] ++ writeElementType e ++ Write.u64 rank
  | .vector e lanes => [4] ++ writeElementType e ++ Write.u64 lanes

def readFieldTy : Read FieldTy := do
  let t ← Read.u8
  match t.toNat with
  | 0 => return .scalar (← readElementType)
  | 1 => return .nominal (← Read.typeid)
  | 2 => return .opaqueTy
  | 3 => return .tensor (← readElementType) (← Read.u64)
  | 4 => return .vector (← readElementType) (← Read.u64)
  | _ => .fail s!"vxlib: bad FieldTy tag {t}"

def writeFieldLayout (f : FieldLayout) : List UInt8 :=
  Write.sym f.name ++ Write.u64 f.offset ++ Write.u64 f.size ++ writeFieldTy f.ty

def readFieldLayout : Read FieldLayout := do
  return ⟨← Read.sym, ← Read.u64, ← Read.u64, ← readFieldTy⟩

def writeTypeDefinition (d : TypeDefinition) : List UInt8 :=
  Write.typeid d.id ++ Write.sym d.name ++ Write.u64 d.sizeBytes ++ Write.u64 d.alignBytes ++
    Write.len d.fields.length ++ d.fields.flatMap writeFieldLayout ++
    Write.len d.byValueDependencies.length ++ d.byValueDependencies.flatMap Write.typeid

def readTypeDefinition : Read TypeDefinition := do
  let id ← Read.typeid
  let name ← Read.sym
  let sizeBytes ← Read.u64
  let alignBytes ← Read.u64
  let fields ← Read.vec .field readFieldLayout
  let byValueDependencies ← Read.vec .typeId Read.typeid
  return ⟨id, name, sizeBytes, alignBytes, fields, byValueDependencies⟩

def writeOptTypeid : Option TypeId → List UInt8
  | none => [0]
  | some t => [1] ++ Write.typeid t

def readOptTypeid : Read (Option TypeId) := do
  let t ← Read.u8
  match t.toNat with
  | 0 => return none
  | 1 => return some (← Read.typeid)
  | _ => .fail s!"vxlib: bad Option<TypeId> tag {t}"

def writeMemorySpace : MemorySpace → List UInt8
  | .cpuDram => [0]
  | .npuHbm => [1]
  | .gpuHbm => [2]
  | .localSram => [3]
  | .nicRam => [4]
  | .remoteHbm => [5]
  | .custom s => [6] ++ Write.sym s

def readMemorySpace : Read MemorySpace := do
  let t ← Read.u8
  match t.toNat with
  | 0 => return .cpuDram
  | 1 => return .npuHbm
  | 2 => return .gpuHbm
  | 3 => return .localSram
  | 4 => return .nicRam
  | 5 => return .remoteHbm
  | 6 => return .custom (← Read.sym)
  | _ => .fail s!"vxlib: bad MemorySpace tag {t}"

def writeOptMemorySpace : Option MemorySpace → List UInt8
  | none => [0]
  | some m => [1] ++ writeMemorySpace m

def readOptMemorySpace : Read (Option MemorySpace) := do
  let t ← Read.u8
  match t.toNat with
  | 0 => return none
  | 1 => return some (← readMemorySpace)
  | _ => .fail s!"vxlib: bad Option<MemorySpace> tag {t}"

section
variable {E : Type}

def writeTopology : Topology E → Except String (List UInt8)
  | .cpu => .ok [0]
  | .amx => .ok [1]
  | .ane => .ok [2]
  | .gpu (.number value _ _) =>
    match parseSigned 64 value with
    | some idx => .ok ([3] ++ Write.u64 (BitVec.ofInt 64 idx))
    | none => .error "vxlib: GPU device index is not an integer"
  | .gpu (.other _) => .error "vxlib: GPU device index is not a literal"
  | .cpuAvx512 => .ok [4]
  | .cpuNeon => .ok [5]
  | .current => .ok [6]
  | .custom s => .ok ([7] ++ Write.sym s)
  | .npu _ | .accCore _ | .slice .. =>
    .error "vxlib: topology carrying a dimension expression not yet serializable"

def gpuAt (index : ℤ) : Topology E := .gpu (.number (toString index) none {})

def readTopology : Read (Topology E) := do
  let t ← Read.u8
  match t.toNat with
  | 0 => return .cpu
  | 1 => return .amx
  | 2 => return .ane
  | 3 => return gpuAt (← Read.u64).toInt
  | 4 => return .cpuAvx512
  | 5 => return .cpuNeon
  | 6 => return .current
  | 7 => return .custom (← Read.sym)
  | _ => .fail s!"vxlib: bad Topology tag {t}"

def writeOptPlacement : Option (Placement E) → Except String (List UInt8)
  | none => .ok [0]
  | some p => do
    return [1] ++ (← writeTopology p.topology) ++ writeMemorySpace p.space ++ Write.u64 (p.alignment.getD 0)

def readOptPlacement : Read (Option (Placement E)) := do
  let t ← Read.u8
  match t.toNat with
  | 0 => return none
  | 1 => do
    let topology ← readTopology
    let space ← readMemorySpace
    let alignment ← Read.u64
    return some ⟨topology, space, .space, if alignment ≠ 0 then some alignment else none⟩
  | _ => .fail s!"vxlib: bad Option<Placement> tag {t}"

def writeBool (b : Bool) : List UInt8 := [if b then 1 else 0]

def readBool : Read Bool := do
  return (← Read.u8) != 0

def writeDim (d : Dim E) : Except String (List UInt8) :=
  match d with
  | .dyn => .ok [0]
  | .static _ =>
    match d.literal with
    | some v => .ok ([1] ++ Write.sym v)
    | none => .error "vxlib: tensor type with dimension expressions not serializable"

def readDim : Read (Dim E) := do
  let t ← Read.u8
  match t.toNat with
  | 0 => return .dyn
  | 1 => return .static (.number (← Read.sym) (some .i32) {})
  | _ => .fail s!"vxlib: bad Dim tag {t}"

def writeDims : List (Dim E) → Except String (List UInt8)
  | [] => .ok []
  | d :: ds => do return (← writeDim d) ++ (← writeDims ds)

mutual

def writeType : Ty E → Except String (List UInt8)
  | .scalar e => .ok ([0] ++ writeElementType e)
  | .struct name id => .ok ([1] ++ Write.sym name ++ writeOptTypeid id)
  | .enum name id => .ok ([2] ++ Write.sym name ++ writeOptTypeid id)
  | .generic name id => .ok ([3] ++ Write.sym name ++ writeOptTypeid id)
  | .ref inner memSpace => do
    return [4] ++ (← writeType inner) ++ writeMemorySpace memSpace
  | .pointer inner placement isMut => do
    return [5] ++ (← writeType inner) ++ (← writeOptPlacement placement) ++ writeBool isMut
  | .borrow inner memSpace isMut regionId => do
    return [6] ++ (← writeType inner) ++ writeOptMemorySpace memSpace ++ writeBool isMut ++ Write.u64 regionId
  | .pinned inner topology => do
    return [7] ++ (← writeType inner) ++ (← writeTopology topology)
  | .verified inner => do
    return [8] ++ (← writeType inner)
  | .genericInstance base args => do
    return [9] ++ (← writeType base) ++ Write.len args.length ++ (← writeTypes args)
  | .function params ret isUnsafe => do
    return [10] ++ writeBool isUnsafe ++ Write.len params.length ++ (← writeTypes params) ++ (← writeType ret)
  | .closure params ret => do
    return [11] ++ Write.len params.length ++ (← writeTypes params) ++ (← writeType ret)
  | .simd e n => .ok ([12] ++ writeElementType e ++ Write.u64 n)
  | .matrix => .ok [13]
  | .unknown => .ok [14]
  | .tensor e dims placement => do
    return [15] ++ writeElementType e ++ (← writeOptPlacement placement) ++ Write.len dims.length ++
      (← writeDims dims)
  | .const _ => .error "vxlib: const-expression type not yet serializable"
  | .module .. => .error "vxlib: module type not serializable"

def writeTypes : List (Ty E) → Except String (List UInt8)
  | [] => .ok []
  | t :: ts => do return (← writeType t) ++ (← writeTypes ts)

end

def readType : (depth : ℕ) → Read (Ty E)
  | 0 => .exhausted
  | depth + 1 => do
    let t ← Read.u8
    match t.toNat with
    | 0 => return .scalar (← readElementType)
    | 1 => return .struct (← Read.sym) (← readOptTypeid)
    | 2 => return .enum (← Read.sym) (← readOptTypeid)
    | 3 => return .generic (← Read.sym) (← readOptTypeid)
    | 4 => return .ref (← readType depth) (← readMemorySpace)
    | 5 => return .pointer (← readType depth) (← readOptPlacement) (← readBool)
    | 6 => return .borrow (← readType depth) (← readOptMemorySpace) (← readBool) (← Read.u64)
    | 7 => return .pinned (← readType depth) (← readTopology)
    | 8 => return .verified (← readType depth)
    | 9 => return .genericInstance (← readType depth) (← Read.vec .type (readType depth))
    | 10 => do
      let isUnsafe ← readBool
      let params ← Read.vec .type (readType depth)
      let ret ← readType depth
      return .function params ret isUnsafe
    | 11 => do
      let params ← Read.vec .type (readType depth)
      let ret ← readType depth
      return .closure params ret
    | 12 => return .simd (← readElementType) (← Read.u64)
    | 13 => return .matrix
    | 14 => return .unknown
    | 15 => do
      let e ← readElementType
      let placement ← readOptPlacement
      let dims ← Read.vec .dim readDim
      return .tensor e dims placement
    | _ => .fail s!"vxlib: bad Type tag {t}"

end

def writeHirInstruction (ins : HirInstruction) : List UInt8 :=
  Write.u64 (BitVec.ofNat 64 ins.opcode.code) ++ Write.u64 (ins.operand1.setWidth 64) ++
    Write.u64 (ins.operand2.setWidth 64) ++ Write.u64 (ins.typeIdx.setWidth 64) ++ Write.u64 ins.imm

def decodeOpcode (raw : Word) : Option Opcode :=
  if raw.toNat < 2 ^ 32 then Opcode.fromU32 raw.toNat else none

def readHirInstruction : Read HirInstruction := do
  let opcodeRaw ← Read.u64
  match decodeOpcode opcodeRaw with
  | none =>
    let raw := opcodeRaw.toNat
    .fail s!"vxlib: bad opcode discriminant {raw}"
  | some opcode => do
    let operand1 ← Read.u64
    let operand2 ← Read.u64
    let typeIdx ← Read.u64
    let imm ← Read.u64
    return ⟨opcode, operand1.setWidth 32, operand2.setWidth 32, typeIdx.setWidth 32, imm⟩

section
variable {E : Type}

def isLocalDeferred (id : TypeId) : Bool := id.flags &&& localDeferredBit != 0

def writeFnBody (gid : TypeId) (body : FnBody E) : Except String (List UInt8) := do
  if body.types.any isLocalDeferred then
    throw "vxlib: body carries a deferred (generic-instantiation) GID"
  let sig ← writeType body.retTy
  let params ← writeTypes body.params
  return Write.typeid gid ++ Write.sym body.name ++ Write.len body.params.length ++ params ++ sig ++
    Write.len body.hir.length ++ body.hir.flatMap writeHirInstruction ++
    Write.len body.types.length ++ body.types.flatMap Write.typeid

def readFnBody (depth : ℕ) : Read (TypeId × FnBody E) := do
  let gid ← Read.typeid
  let name ← Read.sym
  let params ← Read.vec .type (readType depth)
  let retTy ← readType depth
  let hir ← Read.vec .instruction readHirInstruction
  let types ← Read.vec .typeId Read.typeid
  return (gid, ⟨name, params, retTy, hir, types⟩)

def writeRetValid : Option Length → List UInt8
  | none | some .other => [0]
  | some (.param i) => [1] ++ Write.u64 i
  | some (.constant c) => [2] ++ Write.u64 c

def readRetValid : Read (Option Length) := do
  let tag ← Read.u8
  match tag.toNat with
  | 0 => return none
  | 1 => return some (.param (← Read.u64))
  | 2 => return some (.constant (← Read.u64))
  | _ => .fail s!"the length of a `valid` result has the tag {tag}"

def encodeSigRecord (sig : FnSig E) : Except String (List UInt8) := do
  let params ← writeTypes sig.params
  let ret ← writeType sig.retTy
  return Write.len sig.params.length ++ params ++ ret ++ [sig.retProv] ++ writeBool sig.isUnsafe ++
    writeRetValid sig.retValid

def readSigRecord (depth : ℕ) (gid : TypeId) : Read (FnSig E) := do
  let params ← Read.grown (readType depth)
  let retTy ← readType depth
  let retProv ← Read.u8
  let isUnsafe ← readBool
  let retValid ← readRetValid
  return ⟨gid, params, retTy, retProv, isUnsafe, retValid⟩

def writeFields : List (String × Ty E) → Except (String × String) (List UInt8)
  | [] => .ok []
  | (name, ty) :: fields =>
    match writeType ty with
    | .error reason => .error (name, reason)
    | .ok bytes => do return Write.sym name ++ bytes ++ (← writeFields fields)

def writeStructFields (sf : StructFields E) : Except (String × String) (List UInt8) := do
  let fields ← writeFields sf.fields
  return Write.len sf.generics.length ++ sf.generics.flatMap Write.sym ++ Write.len sf.fields.length ++ fields

def readField (depth : ℕ) : Read (String × Ty E) := do
  let name ← Read.sym
  let ty ← readType depth
  return (name, ty)

def readStructFields (depth : ℕ) : Read (StructFields E) := do
  let generics ← Read.grown Read.sym
  let fields ← Read.grown (readField depth)
  return ⟨generics, fields⟩

end

structure Slots (n filled : ℕ) where
  slots : List (Option String)
  length_eq : slots.length = n
  filled_eq : slots.countP Option.isSome = filled

namespace Slots

variable {n filled : ℕ}

def empty (n : ℕ) : Slots n 0 := ⟨List.replicate n none, by simp, by simp [List.countP_replicate]⟩

def place (s : Slots n filled) (i : ℕ) (v : String) (h : s.slots[i]? = some none) : Slots n (filled + 1) where
  slots := s.slots.set i (some v)
  length_eq := by rw [List.length_set, s.length_eq]
  filled_eq := by
    obtain ⟨hi, hnone⟩ := List.getElem?_eq_some_iff.mp h
    rw [List.countP_set hi, hnone, s.filled_eq]
    simp

theorem isSome_of_full (s : Slots n filled) (h : filled = n) (v : Option String) (hv : v ∈ s.slots) :
    v.isSome = true := by
  have hall := (s.filled_eq.trans h).trans s.length_eq.symm
  exact List.countP_eq_length.mp hall v hv

def names (s : Slots n filled) (h : filled = n) : List String :=
  s.slots.pmap Option.get (s.isSome_of_full h)

end Slots

def readVariants (name : String) (n : ℕ) :
    (remaining filled : ℕ) → filled + remaining = n → Slots n filled → Read (List String)
  | 0, _, h, s => return s.names h
  | remaining + 1, filled, h, s => do
    let v ← Read.sym
    let i ← Read.u64
    let number := i.toNat
    match hslot : s.slots[number]? with
    | none => .fail s!"vxlib: enum {name} has a variant numbered {number}"
    | some (some _) => .fail s!"vxlib: enum {name} numbers two variants {number}"
    | some none => readVariants name n remaining (filled + 1) (by omega) (s.place number v hslot)

def writeVariant (variant : String × ℕ) : List UInt8 := Write.sym variant.1 ++ Write.len variant.2

def writeVariants (variants : List String) : List UInt8 :=
  Write.len variants.length ++ variants.zipIdx.flatMap writeVariant

def readEnum : Read (String × List String) := do
  let name ← Read.sym
  let count ← Read.u64
  let n := count.toNat
  Read.withCapacity .variant n
  return (name, ← readVariants name n n 0 (Nat.zero_add n) (.empty n))

end Vx.Interface
