import Vx.Lib.Align
import Vx.Lib.Memo
import Vx.Threads.Program

/-!
The layouts of structs and enums: `LayoutComputer` of `layout.rs`. The names of declarations are their ids, and an instance
of a generic struct has its base and its arguments for an id; types that have one key are one type here. `memo` and
`instances` have no id in common and are one table.
-/

namespace Vx.Layout

open Lib.Align
open Lib.Memo
open Lib.TaggedKey (Text)

inductive TypeId
  | decl (name : Text)
  | inst (base : Text) (args : List Threads.Ty)
deriving DecidableEq

inductive FieldTy
  | scalar (el : Threads.Element)
  | nominal (id : TypeId)
  | opaqueWord
  | tensor (el : Threads.Element) (rank : ℕ)
  | vector (el : Threads.Element) (lanes : ℕ)
deriving DecidableEq

structure FieldLayout where
  name : Text
  offset : ℕ
  size : ℕ
  ty : FieldTy
deriving DecidableEq

structure TypeLayout where
  size : ℕ
  align : ℕ
  fields : List FieldLayout
deriving DecidableEq

structure Info where
  size : ℕ
  align : ℕ
  ty : FieldTy

structure Program extends Threads.Declarations where
  hasKey : Threads.Ty → Bool

/-- The sums and products of a `usize`, and how it is rounded up. -/
structure Arithmetic where
  wrap : ℕ → ℕ
  alignUp : ℕ → ℕ → ℕ

/-- The arithmetic of a release build. -/
def machine : Arithmetic where
  wrap n := n % 2 ^ 64
  alignUp n align := (n + align + (2 ^ 64 - 1)) % 2 ^ 64 &&& (2 ^ 64 - 1 - (align - 1))

/-- The arithmetic in which a size is what it should be. -/
def unbounded : Arithmetic where
  wrap n := n
  alignUp := roundUp

def bits : Threads.Element → Option ℕ
  | .bool => some 1
  | .i4 | .u4 | .f4e2m1 => some 4
  | .i8 | .u8 | .f8e4m3 | .f8e5m2 => some 8
  | .f16 | .bf16 | .i16 | .u16 => some 16
  | .f32 | .i32 | .u32 => some 32
  | .f64 | .i64 | .u64 | .usize => some 64
  | .i128 | .u128 => some 128
  | .generic _ => none

def nextPowerOfTwo (n : ℕ) : ℕ := if n ≤ 1 then 1 else 2 ^ ((n - 1).log2 + 1)

def scalarInfo (el : Threads.Element) : Option Info :=
  (bits el).map fun b => ⟨(b + 7) / 8, (b + 7) / 8, .scalar el⟩

variable (m : Arithmetic)

def vectorInfo (el : Threads.Element) (lanes : ℕ) : Option Info :=
  if lanes = 0 then none
  else (bits el).map fun b =>
    let size := (m.wrap (b * lanes) + 7) / 8
    ⟨size, nextPowerOfTwo size, .vector el lanes⟩

def tensorInfo (el : Threads.Element) (rank : ℕ) : Option Info :=
  match el with
  | .generic _ => none
  | el => some ⟨m.wrap (24 + 16 * rank), 8, .tensor el rank⟩

def structuralFieldInfo : Threads.Ty → Option Info
  | .scalar el => scalarInfo el
  | .borrow (.tensor el dims _) _ _ _ | .tensor el dims _ => tensorInfo m el dims.length
  | .pointer .. | .ref .. | .borrow .. | .function .. | .closure .. => some ⟨8, 8, .opaqueWord⟩
  | .simd el lanes => vectorInfo m el lanes
  | .pinned inner _ | .verified inner => structuralFieldInfo inner
  | _ => none

mutual

def hasGenericParams : Threads.Ty → Bool
  | .generic _ | .scalar (.generic _) | .tensor (.generic _) _ _ | .simd (.generic _) _ => true
  | .genericInstance base args => hasGenericParams base || anyGenericParams args
  | .borrow inner _ _ _ | .ref inner _ | .pointer inner _ _ | .verified inner | .pinned inner _ => hasGenericParams inner
  | .function params result _ | .closure params result => anyGenericParams params || hasGenericParams result
  | _ => false

def anyGenericParams : List Threads.Ty → Bool
  | [] => false
  | ty :: tys => hasGenericParams ty || anyGenericParams tys

end

variable (p : Program)

abbrev Asking (α : Type) := Ask TypeId (Option TypeLayout) α

def isDeclared (name : Text) : Bool := (p.structs.lookup name).isSome || (p.enums.lookup name).isSome

def isInstance (base : Text) (args : List Threads.Ty) : Bool :=
  match p.structs.lookup base with
  | some decl => !decl.generics.isEmpty && !anyGenericParams args && args.all p.hasKey
  | none => false

def nominalInfo (id : TypeId) (layout : TypeLayout) : Info := ⟨layout.size, layout.align, .nominal id⟩

def askNominal (id : TypeId) : Asking (Option Info) := .ask id fun layout => .done (layout.map (nominalInfo id))

def askInstance (name : Text) (args : List Threads.Ty) : Asking (Option Info) :=
  .ask (.decl name) fun
    | some layout => .done (some (nominalInfo (.decl name) layout))
    | none => if isInstance p name args then askNominal (.inst name args) else .done none

def fieldInfo : Threads.Ty → Asking (Option Info)
  -- the structural storage of a wrapper is that of the inner type too
  | .pinned inner _ | .verified inner => fieldInfo inner
  | ty =>
    match structuralFieldInfo m ty with
    | some info => .done (some info)
    | none =>
      match ty with
      | .struct name | .enum name => askNominal (.decl name)
      | .genericInstance (.struct name) args | .genericInstance (.enum name) args =>
        if isDeclared p name then askInstance p name args else .done none
      | _ => .done none

def placeFields : List (Text × Threads.Ty) → ℕ → ℕ → List FieldLayout → Asking (Option TypeLayout)
  | [], offset, align, fields => .done (some ⟨m.alignUp offset align, align, fields⟩)
  | (name, ty) :: rest, offset, align, fields =>
    (fieldInfo m p ty).bind fun
      | none => .done none
      | some info =>
        placeFields rest (m.wrap (m.alignUp offset info.align + info.size)) (max align info.align)
          (fields ++ [⟨name, m.alignUp offset info.align, info.size, info.ty⟩])

def fieldsLayout (fields : List (Text × Threads.Ty)) : Asking (Option TypeLayout) := placeFields m p fields 0 1 []

def enumLayout (decl : Threads.EnumDecl) : Option TypeLayout :=
  if decl.variants.any fun v => v.2.any fun tys => !tys.isEmpty then none else some ⟨4, 4, []⟩

def instanceFields (decl : Threads.StructDecl) (args : List Threads.Ty) : List (Text × Threads.Ty) :=
  decl.fields.map fun f => (f.1, Threads.substitute p.toDeclarations ((decl.generics.map (·.name)).zip args) f.2)

def compute : TypeId → Asking (Option TypeLayout)
  | .decl name =>
    match p.structs.lookup name with
    | some decl => fieldsLayout m p decl.fields
    | none =>
      match p.enums.lookup name with
      | some decl => .done (enumLayout decl)
      | none => .done none
  | .inst base args =>
    match p.structs.lookup base with
    | some decl => fieldsLayout m p (instanceFields p decl args)
    | none => .done none

def layoutOf : ℕ → TypeId → Table TypeId (Option TypeLayout) →
    Option (Option TypeLayout × Table TypeId (Option TypeLayout)) := search (compute machine p) none

end Vx.Layout
