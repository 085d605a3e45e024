import Vx.Interface.Bytecode
import Vx.Interface.Types

namespace Vx.Interface

open Pipeline (TypeId Word)

inductive FieldTy
  | scalar (elem : ElementType)
  | nominal (id : TypeId)
  | opaqueTy
  | tensor (elem : ElementType) (rank : Word)
  | vector (elem : ElementType) (lanes : Word)
deriving DecidableEq, Repr

structure FieldLayout where
  name : String
  offset : Word
  size : Word
  ty : FieldTy
deriving DecidableEq, Repr

structure TypeDefinition where
  id : TypeId
  name : String
  sizeBytes : Word
  alignBytes : Word
  fields : List FieldLayout
  byValueDependencies : List TypeId
deriving DecidableEq, Repr

inductive Length
  | param (position : Word)
  | constant (value : Word)
  | other
deriving DecidableEq, Repr

structure FnSig (E : Type) where
  gid : TypeId
  params : List (Ty E)
  retTy : Ty E
  retProv : UInt8
  isUnsafe : Bool
  retValid : Option Length

structure StructFields (E : Type) where
  generics : List String
  fields : List (String × Ty E)

structure FnBody (E : Type) where
  name : String
  params : List (Ty E)
  retTy : Ty E
  hir : List HirInstruction
  types : List TypeId

abbrev Table (K V : Type) := AList fun _ : K => V

structure Layouts where
  table : Table TypeId TypeDefinition
  keyed : ∀ id def', table.lookup id = some def' → def'.id = id

namespace Layouts

def empty : Layouts := ⟨∅, by simp⟩

def insert (layouts : Layouts) (definition : TypeDefinition) : Layouts where
  table := layouts.table.insert definition.id definition
  keyed id def' h := by
    by_cases hid : id = definition.id
    · subst hid
      rw [AList.lookup_insert] at h
      exact congrArg _ (Option.some.inj h).symm
    · rw [AList.lookup_insert_ne hid] at h
      exact layouts.keyed id def' h

def orInsert (layouts : Layouts) (definition : TypeDefinition) : Layouts :=
  if definition.id ∈ layouts.table then layouts else layouts.insert definition

end Layouts

def orInsert {K V : Type} [DecidableEq K] (table : Table K V) (key : K) (value : V) : Table K V :=
  if key ∈ table then table else table.insert key value

structure AggregateIdentities where
  names : Table String (Option TypeId)
  declarations : Table TypeId String

namespace AggregateIdentities

def add (result : AggregateIdentities) (declaration : TypeId × String) : AggregateIdentities :=
  let (id, name) := declaration
  { names := result.names.insert name <|
      match result.names.lookup name with
      | some old => if old ≠ some id then none else old
      | none => some id
    declarations := result.declarations.insert id <|
      match result.declarations.lookup id with
      | some old => if name < old then name else old
      | none => name }

def new (declarations : List (TypeId × String)) : AggregateIdentities :=
  declarations.foldl add ⟨∅, ∅⟩

def fromLayouts (layouts : Layouts) : AggregateIdentities :=
  new (layouts.table.entries.map fun entry => (entry.1, entry.2.name))

def resolve (identities : AggregateIdentities) (name : String) (attached : Option TypeId) :
    Option (String × TypeId) := do
  let id ← match attached with
    | some id => some id
    | none => (identities.names.lookup name).join
  return (← identities.declarations.lookup id, id)

theorem mem_declarations_foldl (declarations : List (TypeId × String)) (result : AggregateIdentities) (id : TypeId)
    (h : id ∈ (declarations.foldl add result).declarations) :
    id ∈ result.declarations ∨ id ∈ declarations.map Prod.fst := by
  induction declarations generalizing result with
  | nil => exact .inl h
  | cons declaration declarations ih =>
    rcases ih (result.add declaration) h with h | h
    · rw [add, AList.mem_insert] at h
      rcases h with rfl | h
      · exact .inr (by simp)
      · exact .inl h
    · exact .inr (List.mem_cons_of_mem _ h)

theorem resolve_mem {layouts : Layouts} {name found : String} {id : TypeId}
    (h : (fromLayouts layouts).resolve name none = some (found, id)) : id ∈ layouts.table := by
  simp only [resolve, Option.bind_eq_bind, Option.bind_eq_some_iff] at h
  obtain ⟨id', -, text, htext, heq⟩ := h
  cases heq
  have hmem : id ∈ (fromLayouts layouts).declarations := AList.lookup_isSome.mp (by rw [htext]; rfl)
  rcases mem_declarations_foldl _ _ _ hmem with h | h
  · simp at h
  · simpa [AList.mem_keys, AList.keys, List.keys] using h

end AggregateIdentities

def Layouts.get (layouts : Layouts) (id : TypeId) (h : id ∈ layouts.table) : TypeDefinition :=
  (layouts.table.lookup id).get (AList.lookup_isSome.mpr h)

structure LayoutNameIndex where
  builtFrom : ℕ
  byBaseName : Table String (Option TypeId)

def uniqueLayout (layouts : Layouts) (name : String) : Option TypeId :=
  match h : (AggregateIdentities.fromLayouts layouts).resolve name none with
  | none => none
  | some (_, id) =>
    if (layouts.get id (AggregateIdentities.resolve_mem h)).alignBytes ≠ 0 then some id else none

def LayoutNameIndex.build (layouts : Layouts) : LayoutNameIndex where
  builtFrom := layouts.table.entries.length
  byBaseName := layouts.table.entries.foldl
    (fun index entry => index.insert entry.2.name (uniqueLayout layouts entry.2.name)) ∅

structure MergeState where
  importedFns : Finset String := ∅
  poisonedFns : Finset String := ∅
  importedMethods : Finset (TypeId × String) := ∅
  poisonedMethods : Finset (TypeId × String) := ∅
  importedEnums : Finset String := ∅
  poisonedEnums : Finset String := ∅

structure Registry (E : Type) where
  aggregateIdentities : AggregateIdentities
  layouts : Layouts
  moduleIndices : Table Word (Table String TypeId)
  fnSigs : Table String (FnSig E)
  methods : Table (TypeId × String) (FnSig E)
  bodies : Table TypeId (FnBody E)
  enumVariants : Table String (List String)
  structs : Table TypeId (StructFields E)
  structsWithInvariants : Finset TypeId
  mergeState : MergeState
  layoutByBaseName : LayoutNameIndex

def Registry.empty {E : Type} : Registry E where
  aggregateIdentities := ⟨∅, ∅⟩
  layouts := .empty
  moduleIndices := ∅
  fnSigs := ∅
  methods := ∅
  bodies := ∅
  enumVariants := ∅
  structs := ∅
  structsWithInvariants := ∅
  mergeState := {}
  layoutByBaseName := .build .empty

variable {E : Type} [DecidableEq E]

instance : BEq (FnSig E) where
  beq s t := s.gid = t.gid && s.params == t.params && s.retTy == t.retTy && s.retProv = t.retProv &&
    s.isUnsafe = t.isUnsafe && s.retValid = t.retValid

theorem params_beq_iff (ts ts' : List (Ty E)) : (ts == ts') = true ↔ ts.map Ty.key = ts'.map Ty.key := by
  induction ts generalizing ts' with
  | nil => cases ts' <;> simp
  | cons t ts ih => cases ts' <;> simp [ih, Ty.beq_iff]

def FnSig.key (s : FnSig E) : FnSig E :=
  { s with params := s.params.map Ty.key, retTy := s.retTy.key }

theorem FnSig.beq_iff (s t : FnSig E) : (s == t) = true ↔ s.key = t.key := by
  change (_ && s.params == t.params && s.retTy == t.retTy && _ && _ && _) = true ↔ _
  simp [key, params_beq_iff, Ty.beq_iff, and_assoc]

instance : EquivBEq (FnSig E) := equivBEq_of_key FnSig.key FnSig.beq_iff

end Vx.Interface
