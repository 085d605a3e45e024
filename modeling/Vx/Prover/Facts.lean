import Vx.Ast

namespace Vx.Prover

abbrev Names := AList fun _ : String => Expr

def intOf : Ty → Option ElementType
  | .scalar e => if e.intBits.isSome ∧ e ≠ .bool then some e else none
  | _ => none

def castIntTypes (targetTy : Ty) (sourceTy : Option Ty) : Option (ElementType × ElementType) := do
  return (← intOf (← sourceTy), ← intOf targetTy)

def width : ElementType → ℕ × Bool
  | .usize => (63, false)
  | e => (e.intBits.getD 0, e.isSignedInt)

def keepsEveryValue (targetTy : Ty) (sourceTy : Option Ty) : Bool :=
  match castIntTypes targetTy sourceTy with
  | none => false
  | some (source, target) =>
    match (width source).2, (width target).2 with
    | true, false => false
    | false, true => (width source).1 < (width target).1
    | _, _ => (width source).1 ≤ (width target).1

mutual

def isModelledAt (argument : Bool) : Expr → Bool
  | .number _ _ => true
  | .identifier _ => true
  | .borrow e _ => argument && isModelledAt true e
  | .functionCall _ args => areModelled args
  | .asCast e targetTy sourceTy => keepsEveryValue targetTy sourceTy && isModelledAt false e
  | .binaryOp lhs op rhs _ =>
    (op = .add ∨ op = .sub ∨ op = .mul) && isModelledAt false lhs && isModelledAt false rhs
  | .relationalOp lhs _ rhs _ => isModelledAt false lhs && isModelledAt false rhs
  | .logicalOp lhs _ rhs => isModelledAt false lhs && isModelledAt false rhs
  | .unaryOp _ e => isModelledAt false e
  | .memberAccess base _ => isModelledAt false base
  | .indexAccess base index => isModelledAt false base && isModelledAt false index
  | _ => false

def areModelled : List Expr → Bool
  | [] => true
  | a :: args => isModelledAt true a && areModelled args

end

def isModelled (e : Expr) : Bool := isModelledAt false e

@[simp]
def substituteNames (names : Names) : Expr → Expr
  | .identifier name => (names.lookup name).getD (.identifier name)
  | .binaryOp lhs op rhs ty => .binaryOp (substituteNames names lhs) op (substituteNames names rhs) ty
  | .relationalOp lhs op rhs ty => .relationalOp (substituteNames names lhs) op (substituteNames names rhs) ty
  | .logicalOp lhs op rhs => .logicalOp (substituteNames names lhs) op (substituteNames names rhs)
  | .unaryOp op e => .unaryOp op (substituteNames names e)
  | .memberAccess base member => .memberAccess (substituteNames names base) member
  | .indexAccess base index => .indexAccess (substituteNames names base) (substituteNames names index)
  | e => e

mutual

def exprMentions (name : String) : Expr → Bool
  | .identifier id => id = name
  | .number .. | .stringLiteral _ | .memorySpace _ | .topology .. => false
  | .enumVariant _ _ payload => anyMentions name payload
  | .functionCall _ args => anyMentions name args
  | .binaryOp lhs _ rhs _ => exprMentions name lhs || exprMentions name rhs
  | .relationalOp lhs _ rhs _ => exprMentions name lhs || exprMentions name rhs
  | .logicalOp lhs _ rhs => exprMentions name lhs || exprMentions name rhs
  | .unaryOp _ e => exprMentions name e
  | .borrow e _ => exprMentions name e
  | .dereference e => exprMentions name e
  | .memberAccess base _ => exprMentions name base
  | .indexAccess base index => exprMentions name base || exprMentions name index
  | .range start stop => exprMentions name start || exprMentions name stop
  | .asCast e _ _ => exprMentions name e
  | _ => true

def anyMentions (name : String) : List Expr → Bool
  | [] => false
  | e :: es => exprMentions name e || anyMentions name es

end

def noFact : Expr := .relationalOp (.number "0" none) .eq (.number "0" none) none

structure Checker where
  constraints : List Expr
  oldValues : List ElementType
  factChangeFrames : List (List (String × Bool))

def oldName (n : ℕ) : String := "$old_" ++ toString n

namespace Checker

def renameFact (x : String) (names : Names) (fact : Expr) : Expr :=
  if exprMentions x fact then
    let fact := substituteNames names fact
    if exprMentions x fact then noFact else fact
  else fact

def nameTheOldValue (c : Checker) (place : Expr) (ty : Ty) : Option Names × Checker :=
  match place, intOf ty with
  | .identifier x, some int =>
    if c.factChangeFrames = [] then
      let names : Names := AList.insert x (.identifier (oldName c.oldValues.length)) ∅
      (some names, { c with
        oldValues := c.oldValues ++ [int]
        constraints := c.constraints.map (renameFact x names) })
    else (none, c)
  | _, _ => (none, c)

def factOfAnAssignment (place value : Expr) (names : Names) : Option Expr :=
  if isModelled value then some (.relationalOp place .eq (substituteNames names value) none) else none

def neutralizeFactsMentioning (c : Checker) (name : String) : Checker :=
  { c with constraints := c.constraints.map fun fact => if exprMentions name fact then noFact else fact }

def noteAChangeToVariable (c : Checker) (root : String) : Checker :=
  match c.factChangeFrames with
  | [] => c.neutralizeFactsMentioning root
  | frame :: frames => { c with factChangeFrames := (frame ++ [(root, false)]) :: frames }

def assigned (x : String) (ty : Ty) (op : Option BinaryOp) (rhs : Expr) : Expr :=
  match op, ty with
  | some op, .scalar elem => .binaryOp (.identifier x) op rhs (some elem)
  | some op, _ => .binaryOp (.identifier x) op rhs none
  | none, _ => rhs

def assign (c : Checker) (x : String) (ty : Ty) (op : Option BinaryOp) (rhs : Expr) : Checker :=
  let (renamed, c) := c.nameTheOldValue (.identifier x) ty
  let newFact := renamed.bind fun names => factOfAnAssignment (.identifier x) (assigned x ty op rhs) names
  let c := if renamed.isSome then c else c.noteAChangeToVariable x
  { c with constraints := c.constraints ++ newFact.toList }

end Checker

end Vx.Prover
