import Vx.Prover.Facts

namespace Vx.Prover

inductive Value
  | int (n : ℤ)
  | bool (b : Bool)
  | record (names : List String) (values : List Value)
  | array (values : List Value)

/-- A program state as a fact reads it: the integer types of the names, and their values. -/
structure State where
  typeOf : String → Option ElementType
  value : String → Option Value

/-- The values that the calls in an expression returned, by the path from the root to the call. Two calls with one text
are two calls. -/
abbrev Calls := List Bool → Option Value

def Calls.below (calls : Calls) (right : Bool) : Calls := fun path => calls (right :: path)

@[simp]
def intType (s : State) : Expr → Option ElementType
  | .number _ ty => ty
  | .identifier name => s.typeOf name
  | .binaryOp lhs _ rhs operandTy => operandTy.or ((intType s lhs).or (intType s rhs))
  | .unaryOp _ e => intType s e
  | .asCast _ targetTy sourceTy => (castIntTypes targetTy sourceTy).map Prod.snd
  | _ => none

def wrap (exact : ℤ) : Option ElementType → Option ℤ
  | none => none
  | some ty =>
    if ty.isFloat || ty = .usize then some exact
    else if ty = .bool then none
    else ty.intBits.map fun bits =>
      if ty.isSignedInt then (exact + 2 ^ (bits - 1)) % 2 ^ bits - 2 ^ (bits - 1) else exact % 2 ^ bits

def arith : BinaryOp → ℤ → ℤ → Option ℤ
  | .add, a, b => some (a + b)
  | .sub, a, b => some (a - b)
  | .mul, a, b => some (a * b)
  | _, _, _ => none

def compare : RelationalOp → Value → Value → Option Bool
  | .eq, .int a, .int b => some (a = b)
  | .notEq, .int a, .int b => some (a ≠ b)
  | .lt, .int a, .int b => some (a < b)
  | .gt, .int a, .int b => some (b < a)
  | .le, .int a, .int b => some (a ≤ b)
  | .ge, .int a, .int b => some (b ≤ a)
  | .eq, .bool a, .bool b => some (a = b)
  | .notEq, .bool a, .bool b => some (a ≠ b)
  | _, _, _ => none

def combine : LogicalOp → Value → Value → Option Value
  | .and, .bool a, .bool b => some (.bool (a && b))
  | .or, .bool a, .bool b => some (.bool (a || b))
  | _, _, _ => none

def binary (op : BinaryOp) (ty : Option ElementType) : Value → Value → Option Value
  | .int a, .int b => do return .int (← wrap (← arith op a b) ty)
  | _, _ => none

def unary (op : UnaryOp) (literal : Bool) (ty : Option ElementType) : Value → Option Value
  | .bool b => if op = .not then some (.bool !b) else none
  | .int n => if op = .neg then if literal then some (.int (-n)) else (wrap (-n) ty).map .int else none
  | _ => none

def isNumber : Expr → Bool
  | .number .. => true
  | _ => false

def memberOf (member : String) : Value → Option Value
  | .record names values => values[names.idxOf member]?
  | _ => none

def elementAt : Value → Value → Option Value
  | .array values, .int i => if 0 ≤ i then values[i.toNat]? else none
  | _, _ => none

@[simp]
def evalWith (inner : State) : State → Calls → Option ElementType → Expr → Option Value
  | _, _, _, .number value _ => (literalValue value).map fun n => .int n
  | s, _, _, .identifier name => s.value name
  | _, calls, _, .functionCall _ _ => calls []
  | s, calls, expected, .binaryOp lhs op rhs operandTy => do
    let ty := (intType s (.binaryOp lhs op rhs operandTy)).or expected
    binary op ty (← evalWith inner s (calls.below false) ty lhs) (← evalWith inner s (calls.below true) ty rhs)
  | s, calls, _, .relationalOp lhs op rhs operandTy => do
    let side := operandTy.or ((intType s lhs).or (intType s rhs))
    return .bool (← compare op (← evalWith inner s (calls.below false) side lhs)
      (← evalWith inner s (calls.below true) side rhs))
  | s, calls, _, .logicalOp lhs op rhs => do
    combine op (← evalWith inner s (calls.below false) none lhs) (← evalWith inner s (calls.below true) none rhs)
  | s, calls, expected, .unaryOp op e => do
    let operandExpected := if op = .neg then expected else none
    unary op (isNumber e) ((intType s e).or expected) (← evalWith inner s (calls.below false) operandExpected e)
  | s, calls, _, .memberAccess base member => do memberOf member (← evalWith inner s (calls.below false) none base)
  | s, calls, _, .indexAccess base index => do
    elementAt (← evalWith inner s (calls.below false) none base) (← evalWith inner s (calls.below true) none index)
  | _, calls, _, .asCast e targetTy sourceTy =>
    if keepsEveryValue targetTy sourceTy then
      evalWith inner inner (calls.below false) ((castIntTypes targetTy sourceTy).map Prod.fst) e
    else none
  | _, _, _, _ => none

def State.eval (s : State) (calls : Calls) (expected : Option ElementType) (e : Expr) : Option Value :=
  evalWith s s calls expected e

def State.Holds (s : State) (calls : Calls) (fact : Expr) : Prop := s.eval calls none fact = some (.bool true)

@[simp]
def reads (name : String) : Expr → Bool
  | .identifier id => id = name
  | .binaryOp lhs _ rhs _ => reads name lhs || reads name rhs
  | .relationalOp lhs _ rhs _ => reads name lhs || reads name rhs
  | .logicalOp lhs _ rhs => reads name lhs || reads name rhs
  | .unaryOp _ e => reads name e
  | .memberAccess base _ => reads name base
  | .indexAccess base index => reads name base || reads name index
  | .asCast e _ _ => reads name e
  | _ => false

def State.set (s : State) (x : String) (v : Value) : State :=
  { s with value := Function.update s.value x (some v) }

def State.assign (s : State) (x old : String) (int : ElementType) (v : Value) : State :=
  { s with
    typeOf := Function.update s.typeOf old (some int)
    value := Function.update (Function.update s.value x (some v)) old (s.value x) }

end Vx.Prover
