import Vx.Threads.Types
import Vx.Lib.Readable

/-!
The declarations that `Send`, `Sync` and `Owned` are derived from, with the substitution of type parameters
(`syntax/types.rs`) and the matching of a type with the target of an impl (`hir/env.rs`). The index of a topology stands
for its value, by which topologies are compared.
-/

namespace Vx.Threads

open Lib.TaggedKey (Text)

inductive Shape
  | tensor (el : Element) (dims : List Dim) (place : Option Placement)
  | matrix
  | ref (space : MemorySpace)
  | borrow (space : Option MemorySpace) (isMut : Bool) (region : ℕ)
  | pointer (place : Option Placement) (isMut : Bool)
  | scalar (el : Element)
  | struct (name : Text)
  | enum (name : Text)
  | verified
  | pinned (topology : Topology)
  | generic (name : Text)
  | genericInstance
  | module (name : Text)
  | simd (el : Element) (lanes : ℕ)
  | function (isUnsafe : Bool)
  | closure
  | const (expr : Expr)
  | unknown
deriving DecidableEq

mutual

def shape : Ty → Lib.Readable.Tree Shape
  | .tensor el dims place => .node (.tensor el dims place) []
  | .matrix => .node .matrix []
  | .ref inner space => .node (.ref space) [shape inner]
  | .borrow inner space isMut region => .node (.borrow space isMut region) [shape inner]
  | .pointer inner place isMut => .node (.pointer place isMut) [shape inner]
  | .scalar el => .node (.scalar el) []
  | .struct name => .node (.struct name) []
  | .enum name => .node (.enum name) []
  | .verified inner => .node .verified [shape inner]
  | .pinned inner topology => .node (.pinned topology) [shape inner]
  | .generic name => .node (.generic name) []
  | .genericInstance base args => .node .genericInstance (shape base :: shapes args)
  | .module name => .node (.module name) []
  | .simd el lanes => .node (.simd el lanes) []
  | .function params result isUnsafe => .node (.function isUnsafe) (shape result :: shapes params)
  | .closure params result => .node .closure (shape result :: shapes params)
  | .const expr => .node (.const expr) []
  | .unknown => .node .unknown []

def shapes : List Ty → List (Lib.Readable.Tree Shape)
  | [] => []
  | ty :: tys => shape ty :: shapes tys

end

def assemble : Shape → List Ty → Ty
  | .tensor el dims place, _ => .tensor el dims place
  | .matrix, _ => .matrix
  | .ref space, [inner] => .ref inner space
  | .borrow space isMut region, [inner] => .borrow inner space isMut region
  | .pointer place isMut, [inner] => .pointer inner place isMut
  | .scalar el, _ => .scalar el
  | .struct name, _ => .struct name
  | .enum name, _ => .enum name
  | .verified, [inner] => .verified inner
  | .pinned topology, [inner] => .pinned inner topology
  | .generic name, _ => .generic name
  | .genericInstance, base :: args => .genericInstance base args
  | .module name, _ => .module name
  | .simd el lanes, _ => .simd el lanes
  | .function isUnsafe, result :: params => .function params result isUnsafe
  | .closure, result :: params => .closure params result
  | .const expr, _ => .const expr
  | _, _ => .unknown

mutual

def ofShape : Lib.Readable.Tree Shape → Ty
  | .node s ts => assemble s (ofShapes ts)

def ofShapes : List (Lib.Readable.Tree Shape) → List Ty
  | [] => []
  | t :: ts => ofShape t :: ofShapes ts

end

mutual

theorem ofShape_shape (ty : Ty) : ofShape (shape ty) = ty := by
  cases ty with
  | ref inner _ | borrow inner _ _ _ | pointer inner _ _ | verified inner | pinned inner _ =>
    simp only [shape, ofShape, ofShapes, ofShape_shape inner, assemble]
  | genericInstance base args =>
    simp only [shape, ofShape, ofShapes, ofShape_shape base, ofShapes_shapes args, assemble]
  | function params result _ | closure params result =>
    simp only [shape, ofShape, ofShapes, ofShape_shape result, ofShapes_shapes params, assemble]
  | _ => rfl

theorem ofShapes_shapes (tys : List Ty) : ofShapes (shapes tys) = tys := by
  cases tys with
  | nil => rfl
  | cons ty tys => simp only [shapes, ofShapes, ofShape_shape ty, ofShapes_shapes tys]

end

theorem shape_injective : Function.Injective shape := fun a b h => by
  rw [← ofShape_shape a, h, ofShape_shape b]

instance : DecidableEq Ty := fun a b => decidable_of_iff (shape a = shape b) shape_injective.eq_iff

inductive ThreadTrait
  | Send
  | Sync
  | Owned
deriving DecidableEq

def ThreadTrait.name : ThreadTrait → String
  | .Send => "Send"
  | .Sync => "Sync"
  | .Owned => "Owned"

/-- The bounds are those on the three traits. An impl of one of them with a bound on another trait is left out, since
such a bound is answered by the search for impls. -/
inductive GenericParam
  | type (name : Text) (bounds : List ThreadTrait)
  | other (name : Text)

def GenericParam.name : GenericParam → Text
  | .type name _ | .other name => name

structure StructDecl where
  generics : List GenericParam
  fields : List (Text × Ty)

structure EnumDecl where
  generics : List GenericParam
  variants : List (Text × Option (List Ty))

structure ImplBlock where
  generics : List GenericParam
  targetType : Ty
  isUnsafe : Bool

abbrev Bindings := List (Text × Ty)

structure Declarations where
  host : Host
  structs : List (Text × StructDecl)
  enums : List (Text × EnumDecl)
  memoryVariable : Placement → Option Text
  substituteOther : Bindings → Text → Text

/-- The declarations of a program, with what the checker knows besides: the parameters that a call is still to bind, and
the signatures of its closures. -/
structure Env extends Declarations where
  impls : List (Text × List ImplBlock)
  pendingMemoryVars : Text → Bool
  pendingTopoVars : Text → Bool
  closureSignatures : Text → Option (List Ty × Ty)
  display : Ty → String

section
variable (env : Declarations) (mapping : Bindings)

def substituteExpr : Expr → Expr
  | .identifier name =>
    match mapping.lookup name with
    | some (.generic value) => if (env.host.parse value).isSome then .number value else .identifier value
    | some (.const expr) => expr
    | _ => .identifier name
  | .binaryOp op lhs rhs => .binaryOp op (substituteExpr lhs) (substituteExpr rhs)
  | .unaryOp op expr => .unaryOp op (substituteExpr expr)
  | .relationalOp op lhs rhs => .relationalOp op (substituteExpr lhs) (substituteExpr rhs)
  | .logicalOp op lhs rhs => .logicalOp op (substituteExpr lhs) (substituteExpr rhs)
  | .memberAccess base member => .memberAccess (substituteExpr base) member
  | .indexAccess base index => .indexAccess (substituteExpr base) (substituteExpr index)
  | .other debug => .other (env.substituteOther mapping debug)
  | expr => expr

def substituteDim : Dim → Dim
  | .static expr => .static (substituteExpr env mapping expr)
  | .dyn => .dyn

def substituteElement (el : Element) : Element :=
  match el with
  | .generic name =>
    match mapping.lookup name with
    | some (.scalar concrete) => concrete
    | _ => el
  | _ => el

def memoryArgument (memory : Option Placement) : Ty := .pointer .unknown memory false

def asMemoryArgument : Ty → Option (Option Placement)
  | .pointer .unknown memory false => some memory
  | _ => none

def substituteMemory (place : Option Placement) : Option Placement :=
  ((place.bind env.memoryVariable).bind fun name => (mapping.lookup name).bind asMemoryArgument).getD place

mutual

def substitute : Ty → Ty
  | .struct name =>
    if name = "Self".toList then (mapping.lookup name).getD (.struct name) else .struct name
  | .generic name => (mapping.lookup name).getD (.generic name)
  | .const expr => .const (substituteExpr env mapping expr)
  | .genericInstance base args => .genericInstance (substitute base) (substituteAll args)
  | .borrow inner space isMut region => .borrow (substitute inner) space isMut region
  | .pointer inner place isMut => .pointer (substitute inner) place isMut
  | .tensor el dims place =>
    .tensor (substituteElement mapping el) (dims.map (substituteDim env mapping)) (substituteMemory env mapping place)
  | .ref inner space => .ref (substitute inner) space
  | .verified inner => .verified (substitute inner)
  | .pinned inner topology => .pinned (substitute inner) topology
  | .simd el lanes => .simd (substituteElement mapping el) lanes
  | .function params result isUnsafe => .function (substituteAll params) (substitute result) isUnsafe
  | .closure params result => .closure (substituteAll params) (substitute result)
  | ty => ty

def substituteAll : List Ty → List Ty
  | [] => []
  | ty :: tys => substitute ty :: substituteAll tys

end

end

variable (env : Env)

def unifyTensorElem (e₁ e₂ : Element) (mapping : Bindings) : Option Bindings :=
  match e₁ with
  | .generic name =>
    match mapping.lookup name with
    | some existing => if existing = .scalar e₂ then some mapping else none
    | none => some ((name, .scalar e₂) :: mapping)
  | _ => if e₁ = e₂ then some mapping else none

def extentOf : Ty → Option Text
  | .generic name => some name
  | .const (.number value) => some value
  | .const (.identifier name) => some name
  | _ => none

def bindDim (name : Text) (extent : Ty) (mapping : Bindings) : Option Bindings :=
  match mapping.lookup name with
  | some existing =>
    let agree := match extentOf existing, extentOf extent with
      | some a, some b => decide (a = b)
      | _, _ => decide (existing = extent)
    if agree then some mapping else none
  | none => some ((name, extent) :: mapping)

def unifyDim (d₁ d₂ : Dim) (mapping : Bindings) : Option Bindings :=
  match d₁, d₂ with
  | .dyn, _ => some mapping
  | .static (.identifier name), .static (.number value) => bindDim name (.generic value) mapping
  | .static (.identifier name), .static (.identifier name') => bindDim name (.generic name') mapping
  | .static (.identifier _), .dyn => none
  | d₁, d₂ => if d₁ = d₂ then some mapping else none

def unifyDims : List Dim → List Dim → Bindings → Option Bindings
  | [], [], mapping => some mapping
  | d₁ :: ds₁, d₂ :: ds₂, mapping => (unifyDim d₁ d₂ mapping).bind (unifyDims ds₁ ds₂)
  | _, _, _ => none

def bindMemory (pattern arg : Option Placement) (mapping : Bindings) : Option (Option Bindings) :=
  ((pattern.bind env.memoryVariable).filter env.pendingMemoryVars).map fun name =>
    match mapping.lookup name with
    | some existing => if existing = memoryArgument arg then some mapping else none
    | none => some ((name, memoryArgument arg) :: mapping)

def unifyPlacement (p₁ p₂ : Option Placement) (mapping : Bindings) : Option Bindings :=
  (bindMemory env p₁ p₂ mapping).getD (if p₁ = none ∨ p₁ = p₂ then some mapping else none)

mutual

def unifyTypes : Ty → Ty → Bindings → Option Bindings
  | .generic name, ty, mapping =>
    match mapping.lookup name with
    | some existing => if existing = ty then some mapping else none
    | none => some ((name, ty) :: mapping)
  | .tensor e₁ d₁ p₁, ty, mapping =>
    match ty with
    | .tensor e₂ d₂ p₂ =>
      (unifyTensorElem e₁ e₂ mapping).bind fun mapping =>
        (unifyPlacement env p₁ p₂ mapping).bind (unifyDims d₁ d₂)
    | _ => none
  | .pointer t₁ p₁ mut₁, ty, mapping =>
    match ty with
    | .pointer t₂ p₂ mut₂ => if p₁ = p₂ ∧ mut₁ = mut₂ then unifyTypes t₁ t₂ mapping else none
    | _ => none
  | .borrow t₁ m₁ mut₁ _, ty, mapping =>
    match ty with
    | .borrow t₂ m₂ mut₂ _ => if m₁ = m₂ ∧ mut₁ = mut₂ then unifyTypes t₁ t₂ mapping else none
    | _ => none
  | .ref t₁ m₁, ty, mapping =>
    match ty with
    | .ref t₂ m₂ => if m₁ = m₂ then unifyTypes t₁ t₂ mapping else none
    | _ => none
  | .genericInstance b₁ args₁, ty, mapping =>
    match ty with
    | .genericInstance b₂ args₂ => (unifyTypes b₁ b₂ mapping).bind (unifyAll args₁ args₂)
    | .struct name =>
      -- The type of a closure literal, which has its signature elsewhere.
      let closures := match b₁ with
        | .struct base => "Closure".toList.isPrefixOf base && "Closure_".toList.isPrefixOf name
        | _ => false
      if closures then
        (env.closureSignatures name).bind fun signature =>
          unifyAll args₁ (signature.1 ++ [signature.2]) mapping
      else none
    | _ => none
  | .function ps₁ r₁ u₁, ty, mapping =>
    match ty with
    | .function ps₂ r₂ u₂ => if u₁ = u₂ then (unifyTypes r₁ r₂ mapping).bind (unifyAll ps₁ ps₂) else none
    | _ => none
  | .closure ps₁ r₁, ty, mapping =>
    match ty with
    | .closure ps₂ r₂ => (unifyTypes r₁ r₂ mapping).bind (unifyAll ps₁ ps₂)
    | _ => none
  | .struct n₁, ty, mapping =>
    match ty with
    | .struct n₂ | .enum n₂ => if n₁ = n₂ then some mapping else none
    | _ => none
  | .enum n₁, ty, mapping =>
    match ty with
    | .struct n₂ | .enum n₂ => if n₁ = n₂ then some mapping else none
    | _ => none
  | .pinned t₁ top₁, ty, mapping =>
    match ty with
    | .pinned t₂ top₂ =>
      let topsOk := match top₁ with
        | .Custom name => env.pendingTopoVars name || decide (top₁ = top₂)
        | _ => decide (top₁ = top₂)
      if topsOk then unifyTypes t₁ t₂ mapping else none
    | _ => none
  | pattern, ty, mapping => if pattern = ty then some mapping else none

def unifyAll : List Ty → List Ty → Bindings → Option Bindings
  | [], [], mapping => some mapping
  | t₁ :: ts₁, t₂ :: ts₂, mapping => (unifyTypes t₁ t₂ mapping).bind (unifyAll ts₁ ts₂)
  | _, _, _ => none

end

end Vx.Threads
