import Vx.Ast
import Vx.Pipeline.Gid

namespace Vx.Interface

open Option
open Pipeline (TypeId Word)

structure Span where
  line : ℕ := 0
  column : ℕ := 0
  length : ℕ := 0
  expansion : ℕ := 0
deriving DecidableEq, Repr

/-- An expression inside a type. Only a number literal is looked into; `E` stands for the other forms, taken up
to the equality of the syntax tree. -/
inductive Expr (E : Type)
  | number (value : String) (ty : Option ElementType) (span : Span)
  | other (expr : E)
deriving DecidableEq, Repr

inductive Dim (E : Type)
  | static (expr : Expr E)
  | dyn
deriving DecidableEq, Repr

def Dim.literal {E : Type} : Dim E → Option String
  | .static (.number value _ _) => some value
  | _ => none

inductive Topology (E : Type)
  | cpu
  | npu (index : Expr E)
  | accCore (index : Expr E)
  | amx
  | ane
  | gpu (index : Expr E)
  | cpuAvx512
  | cpuNeon
  | slice (base : Topology E) (start stop : Expr E)
  | custom (name : String)
  | current

inductive MemorySpace
  | cpuDram | npuHbm | gpuHbm | localSram | nicRam | remoteHbm
  | custom (name : String)
deriving DecidableEq, Repr

inductive Stated
  | device | space
deriving DecidableEq, Repr

structure Placement (E : Type) where
  topology : Topology E
  space : MemorySpace
  stated : Stated
  alignment : Option Word

inductive Ty (E : Type)
  | tensor (elem : ElementType) (dims : List (Dim E)) (placement : Option (Placement E))
  | matrix
  | ref (inner : Ty E) (memSpace : MemorySpace)
  | borrow (inner : Ty E) (memSpace : Option MemorySpace) (isMut : Bool) (regionId : Word)
  | pointer (inner : Ty E) (placement : Option (Placement E)) (isMut : Bool)
  | scalar (elem : ElementType)
  | struct (name : String) (id : Option TypeId)
  | enum (name : String) (id : Option TypeId)
  | verified (inner : Ty E)
  | pinned (inner : Ty E) (topology : Topology E)
  | generic (name : String) (id : Option TypeId)
  | genericInstance (base : Ty E) (args : List (Ty E))
  | module (path : String) (names : List String) (exported : List (Ty E))
  | simd (elem : ElementType) (lanes : Word)
  | function (params : List (Ty E)) (ret : Ty E) (isUnsafe : Bool)
  | closure (params : List (Ty E)) (ret : Ty E)
  | const (expr : Expr E)
  | unknown

def splitSign : List Char → Bool × List Char
  | '-' :: digits => (true, digits)
  | '+' :: digits => (false, digits)
  | digits => (false, digits)

def parseSigned (bits : ℕ) (text : String) : Option ℤ := do
  let (negative, digits) := splitSign text.toList
  if digits = [] then none
  else
    let n ← digitsValue 0 digits
    let value : ℤ := if negative then -n else n
    if -(2 ^ (bits - 1)) ≤ value ∧ value < 2 ^ (bits - 1) then some value else none

theorem digitsValue_append (acc : ℕ) (cs ds : List Char) :
    digitsValue acc (cs ++ ds) = (digitsValue acc cs).bind fun n => digitsValue n ds := by
  induction cs generalizing acc with
  | nil => rfl
  | cons c cs ih =>
    simp only [List.cons_append, digitsValue, bind_eq_bind]
    cases digitValue c with
    | none => rfl
    | some d => exact ih _

theorem digitValue_digitChar (n : ℕ) (h : n < 10) : digitValue n.digitChar = some n := by
  have hall : ∀ m ∈ List.range 10, digitValue m.digitChar = some m := by decide
  exact hall n (List.mem_range.mpr h)

theorem digitsValue_toDigits (n : ℕ) : digitsValue 0 (Nat.toDigits 10 n) = some n := by
  induction n using Nat.strong_induction_on with
  | h n ih =>
    rw [Nat.toDigits_eq_if (by decide)]
    split
    next h => simp [digitsValue, digitValue_digitChar n h]
    next h =>
      rw [digitsValue_append, ih _ (by omega)]
      simp only [digitsValue, digitValue_digitChar _ (Nat.mod_lt n (by decide)), bind_some,
        bind_eq_bind, Option.some.injEq]
      omega

theorem splitSign_toDigits (n : ℕ) : splitSign (Nat.toDigits 10 n) = (false, Nat.toDigits 10 n) := by
  have hdigit := fun c => Nat.isDigit_of_mem_toDigits (b := 10) (n := n) (c := c) (by decide) (by decide)
  unfold splitSign
  split
  next h => exact absurd (hdigit '-' (by simp [h])) (by decide)
  next h => exact absurd (hdigit '+' (by simp [h])) (by decide)
  next => rfl

theorem parseSigned_toString (bits : ℕ) (i : ℤ) (hlow : -(2 ^ (bits - 1)) ≤ i) (hhigh : i < 2 ^ (bits - 1)) :
    parseSigned bits (toString i) = some i := by
  have hne := fun n => Nat.toDigits_ne_nil (b := 10) (n := n)
  cases i with
  | ofNat m =>
    have htext : (toString (Int.ofNat m)).toList = Nat.toDigits 10 m := Nat.toList_repr
    simp only [parseSigned, htext, splitSign_toDigits, hne, if_false, digitsValue_toDigits]
    exact if_pos ⟨hlow, hhigh⟩
  | negSucc m =>
    have htext : (toString (Int.negSucc m)).toList = '-' :: Nat.toDigits 10 (m + 1) := by
      change ("-" ++ m.succ.repr).toList = _
      rw [String.toList_append, Nat.toList_repr]
      rfl
    simp only [parseSigned, htext, splitSign, hne, if_false, digitsValue_toDigits]
    exact if_pos ⟨hlow, hhigh⟩

variable {E : Type} [DecidableEq E]

def topologyIndexEq : Expr E → Expr E → Bool
  | .number x _ _, .number y _ _ =>
    match parseSigned 128 x, parseSigned 128 y with
    | some i, some j => i = j
    | _, _ => x = y
  | a, b => a = b

def Topology.beq : Topology E → Topology E → Bool
  | .cpu, .cpu | .amx, .amx | .ane, .ane | .cpuAvx512, .cpuAvx512 | .cpuNeon, .cpuNeon
  | .current, .current => true
  | .npu a, .npu b | .accCore a, .accCore b | .gpu a, .gpu b => topologyIndexEq a b
  | .custom a, .custom b => a = b
  | .slice base start stop, .slice base' start' stop' =>
    base.beq base' && topologyIndexEq start start' && topologyIndexEq stop stop'
  | _, _ => false

instance : BEq (Topology E) := ⟨Topology.beq⟩

instance : BEq (Placement E) where
  beq p q := p.topology == q.topology && p.space = q.space && p.alignment = q.alignment

mutual

def Ty.beq : Ty E → Ty E → Bool
  | .tensor elem dims placement, .tensor elem' dims' placement' =>
    elem = elem' && dims = dims' && placement == placement'
  | .matrix, .matrix => true
  | .ref inner memSpace, .ref inner' memSpace' => inner.beq inner' && memSpace = memSpace'
  | .borrow inner memSpace isMut regionId, .borrow inner' memSpace' isMut' regionId' =>
    inner.beq inner' && memSpace = memSpace' && isMut = isMut' && regionId = regionId'
  | .pointer inner placement isMut, .pointer inner' placement' isMut' =>
    inner.beq inner' && placement == placement' && isMut = isMut'
  | .scalar elem, .scalar elem' => elem = elem'
  | .struct name id, .struct name' id' => name = name' && id = id'
  | .enum name id, .enum name' id' => name = name' && id = id'
  | .verified inner, .verified inner' => inner.beq inner'
  | .pinned inner topology, .pinned inner' topology' => inner.beq inner' && topology == topology'
  | .generic name id, .generic name' id' => name = name' && id = id'
  | .genericInstance base args, .genericInstance base' args' => base.beq base' && Ty.beqs args args'
  | .module path names exported, .module path' names' exported' =>
    path = path' && names = names' && Ty.beqs exported exported'
  | .simd elem lanes, .simd elem' lanes' => elem = elem' && lanes = lanes'
  | .function params ret isUnsafe, .function params' ret' isUnsafe' =>
    Ty.beqs params params' && ret.beq ret' && isUnsafe = isUnsafe'
  | .closure params ret, .closure params' ret' => Ty.beqs params params' && ret.beq ret'
  | .const expr, .const expr' => expr = expr'
  | .unknown, .unknown => true
  | _, _ => false

def Ty.beqs : List (Ty E) → List (Ty E) → Bool
  | [], [] => true
  | t :: ts, t' :: ts' => t.beq t' && Ty.beqs ts ts'
  | _, _ => false

end

instance : BEq (Ty E) := ⟨Ty.beq⟩

def Expr.device : Expr E → Expr E
  | .number value _ _ => .number ((parseSigned 128 value).elim value toString) none {}
  | .other expr => .other expr

theorem parseSigned_range {bits : ℕ} {text : String} {i : ℤ} (h : parseSigned bits text = some i) :
    -(2 ^ (bits - 1)) ≤ i ∧ i < 2 ^ (bits - 1) := by
  simp only [parseSigned, bind_eq_bind] at h
  split at h
  · cases h
  · obtain ⟨n, -, h⟩ := Option.bind_eq_some_iff.mp h
    obtain ⟨hrange, hi⟩ := Option.ite_none_right_eq_some.mp h
    rwa [Option.some.inj hi] at hrange

theorem parseSigned_printed {bits : ℕ} {text : String} {i : ℤ} (h : parseSigned bits text = some i) :
    parseSigned bits (toString i) = some i :=
  parseSigned_toString bits i (parseSigned_range h).1 (parseSigned_range h).2

theorem topologyIndexEq_iff (a b : Expr E) : topologyIndexEq a b = true ↔ a.device = b.device := by
  cases a with
  | other e => cases b <;> simp [topologyIndexEq, Expr.device]
  | number x =>
    cases b with
    | other e => simp [topologyIndexEq, Expr.device]
    | number y =>
      simp only [topologyIndexEq, Expr.device, Expr.number.injEq, and_true]
      cases hx : parseSigned 128 x with
      | none =>
        cases hy : parseSigned 128 y with
        | none => simp
        | some j =>
          simp only [elim_none, elim_some, decide_eq_true_eq]
          constructor
          · rintro rfl
            rw [hx] at hy
            cases hy
          · rintro rfl
            rw [parseSigned_printed hy] at hx
            cases hx
      | some i =>
        have hi := parseSigned_printed hx
        cases hy : parseSigned 128 y with
        | none =>
          simp only [elim_none, elim_some, decide_eq_true_eq]
          constructor
          · rintro rfl
            rw [hx] at hy
            cases hy
          · rintro rfl
            rw [hi] at hy
            cases hy
        | some j =>
          simp only [elim_some, decide_eq_true_eq]
          refine ⟨congrArg _, fun h => ?_⟩
          rw [h, parseSigned_printed hy] at hi
          exact (Option.some.inj hi).symm

def Topology.device : Topology E → Topology E
  | .npu index => .npu index.device
  | .accCore index => .accCore index.device
  | .gpu index => .gpu index.device
  | .slice base start stop => .slice base.device start.device stop.device
  | t => t

theorem Topology.beq_iff (t t' : Topology E) : (t == t') = true ↔ t.device = t'.device := by
  change t.beq t' = true ↔ _
  induction t generalizing t' with
  | slice base start stop ih =>
    cases t' <;> simp [beq, device, topologyIndexEq_iff, ih, and_assoc]
  | _ => cases t' <;> simp [beq, device, topologyIndexEq_iff]

def Placement.location (p : Placement E) : Placement E :=
  { p with topology := p.topology.device, stated := .space }

theorem Placement.beq_iff (p q : Placement E) : (p == q) = true ↔ p.location = q.location := by
  change (p.topology == q.topology && _ && _) = true ↔ _
  simp [location, Topology.beq_iff, and_assoc]

theorem Placement.option_beq_iff (p q : Option (Placement E)) : (p == q) = true ↔ p.map location = q.map location := by
  cases p <;> cases q <;> simp [Placement.beq_iff]

mutual

def Ty.key : Ty E → Ty E
  | .tensor elem dims placement => .tensor elem dims (placement.map Placement.location)
  | .ref inner memSpace => .ref inner.key memSpace
  | .borrow inner memSpace isMut regionId => .borrow inner.key memSpace isMut regionId
  | .pointer inner placement isMut => .pointer inner.key (placement.map Placement.location) isMut
  | .verified inner => .verified inner.key
  | .pinned inner topology => .pinned inner.key topology.device
  | .genericInstance base args => .genericInstance base.key (Ty.keys args)
  | .module path names exported => .module path names (Ty.keys exported)
  | .function params ret isUnsafe => .function (Ty.keys params) ret.key isUnsafe
  | .closure params ret => .closure (Ty.keys params) ret.key
  | t => t

def Ty.keys : List (Ty E) → List (Ty E)
  | [] => []
  | t :: ts => t.key :: Ty.keys ts

end

mutual

theorem Ty.beq_iff_key (t t' : Ty E) : t.beq t' = true ↔ t.key = t'.key := by
  cases t with
  | ref inner _ | borrow inner | pointer inner | verified inner | pinned inner =>
    have ih := Ty.beq_iff_key inner
    cases t' <;> simp [beq, key, ih, and_assoc, Placement.option_beq_iff, Topology.beq_iff]
  | genericInstance base args =>
    have ih := Ty.beq_iff_key base
    have hargs := Ty.beqs_iff_keys args
    cases t' <;> simp [beq, key, ih, hargs]
  | module _ _ exported =>
    have hexported := Ty.beqs_iff_keys exported
    cases t' <;> simp [beq, key, hexported, and_assoc]
  | function params ret | closure params ret =>
    have ih := Ty.beq_iff_key ret
    have hparams := Ty.beqs_iff_keys params
    cases t' <;> simp [beq, key, ih, hparams, and_assoc]
  | _ => cases t' <;> simp [beq, key, and_assoc, Placement.option_beq_iff]

theorem Ty.beqs_iff_keys (ts ts' : List (Ty E)) : Ty.beqs ts ts' = true ↔ Ty.keys ts = Ty.keys ts' := by
  cases ts with
  | nil => cases ts' <;> simp [beqs, keys]
  | cons t ts =>
    have h := Ty.beq_iff_key t
    have ih := Ty.beqs_iff_keys ts
    cases ts' <;> simp [beqs, keys, h, ih]

end

theorem Ty.beq_iff (t t' : Ty E) : (t == t') = true ↔ t.key = t'.key := Ty.beq_iff_key t t'

theorem equivBEq_of_key {α β : Type} [BEq α] (key : α → β) (h : ∀ a b, (a == b) = true ↔ key a = key b) :
    EquivBEq α where
  rfl := (h ..).mpr rfl
  symm hab := (h ..).mpr ((h ..).mp hab).symm
  trans hab hbc := (h ..).mpr (((h ..).mp hab).trans ((h ..).mp hbc))

instance : EquivBEq (Ty E) := equivBEq_of_key Ty.key Ty.beq_iff

end Vx.Interface
