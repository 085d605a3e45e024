import Mathlib

namespace Vx

inductive ElementType
  | f16 | f32 | f64 | bf16 | f8e4m3 | f8e5m2 | f4e2m1
  | i4 | u4 | i8 | u8 | i16 | u16 | i32 | u32 | i64 | u64 | i128 | u128
  | usize
  | bool
  | generic (name : String)
deriving DecidableEq, Repr

namespace ElementType

def intBits : ElementType → Option ℕ
  | bool => some 1
  | i4 | u4 => some 4
  | i8 | u8 => some 8
  | i16 | u16 => some 16
  | i32 | u32 => some 32
  | i64 | u64 | usize => some 64
  | i128 | u128 => some 128
  | _ => none

def isSignedInt : ElementType → Bool
  | i4 | i8 | i16 | i32 | i64 | i128 => true
  | _ => false

def isFloat : ElementType → Bool
  | f16 | f32 | f64 | bf16 | f8e4m3 | f8e5m2 | f4e2m1 => true
  | _ => false

end ElementType

inductive Ty
  | tensor (elem : ElementType) (rank : ℕ)
  | matrix
  | ref (inner : Ty)
  | borrow (inner : Ty) (isMut : Bool)
  | pointer (inner : Ty) (isMut : Bool)
  | scalar (elem : ElementType)
  | struct (name : String)
  | enum (name : String)
  | verified (inner : Ty)
  | pinned (inner : Ty)
  | generic (name : String)
  | genericInstance (base : Ty) (args : List Ty)
  | module (path : String)
  | simd (elem : ElementType) (lanes : ℕ)
  | function (params : List Ty) (ret : Ty) (isUnsafe : Bool)
  | closure (params : List Ty) (ret : Ty)
  | const
  | unknown

inductive BinaryOp
  | add | sub | mul | matMul | div | rem | bitAnd | bitOr | bitXor | shl | shr
deriving DecidableEq, Repr

inductive RelationalOp
  | eq | notEq | lt | gt | le | ge
deriving DecidableEq, Repr

inductive LogicalOp
  | and | or
deriving DecidableEq, Repr

inductive UnaryOp
  | not | neg | try
deriving DecidableEq, Repr

mutual

/-- The expressions of the syntax tree, without spans. A missing payload or `else` is an empty list, the fields
of a struct literal are a list of names beside a list of values, and a topology keeps the expressions in it. -/
inductive Expr
  | identifier (name : String)
  | enumVariant (enumName variantName : String) (payload : List Expr)
  | number (value : String) (ty : Option ElementType)
  | stringLiteral (value : String)
  | transfer (expr : Expr)
  | transferPredicate (indices : List Expr)
  | functionCall (name : String) (args : List Expr)
  | indirectCall (callee : Expr) (args : List Expr)
  | array (elements : List Expr)
  | memberAccess (base : Expr) (member : String)
  | indexAccess (base index : Expr)
  | methodCall (base : Expr) (methodName : String) (args : List Expr)
  | binaryOp (lhs : Expr) (op : BinaryOp) (rhs : Expr) (operandTy : Option ElementType)
  | relationalOp (lhs : Expr) (op : RelationalOp) (rhs : Expr) (operandTy : Option ElementType)
  | logicalOp (lhs : Expr) (op : LogicalOp) (rhs : Expr)
  | unaryOp (op : UnaryOp) (expr : Expr)
  | borrow (expr : Expr) (isMut : Bool)
  | dereference (expr : Expr)
  | unsafeBlock (stmts : List Statement) (ret : Option Expr)
  | comptimeBlock (stmts : List Statement) (ret : Option Expr)
  | structInit (name : String) (fieldNames : List String) (fields : List Expr)
  | memorySpace (space : String)
  | topology (name : String) (indices : List Expr)
  | ifExpr (cond : Expr) (thenBlock elseBlock : List Statement)
  | range (start stop : Expr)
  | matchExpr (expr : Expr) (arms : List MatchArm)
  | grad (targetFn : String) (args : List Expr)
  | vjp (targetFn : String) (args : List Expr) (cotangent : Expr)
  | jvp (targetFn : String) (args : List Expr) (tangent : Expr)
  | spawnOn (indices : List Expr) (stmts : List Statement) (ret : Option Expr)
  | taskBlock (stmts : List Statement) (ret : Option Expr)
  | vecMacro (elements : List Expr)
  | closure (params : List String) (body : Expr)
  | macroCall (name : String)
  | asCast (expr : Expr) (targetTy : Ty) (sourceTy : Option Ty)
  | print (args : List Expr)
  | println (args : List Expr)
  | sizeOf (targetTy : Ty)
  | inlineMlir (inputs clobbers : List Expr) (returns : Option Ty)

inductive Pattern
  | wildcard
  | literal (expr : Expr)
  | identifier (name : String)
  | enumVariant (enumName variantName : String) (payload : List Pattern)

inductive MatchArm
  | mk (pattern : Pattern) (body : List Statement)

inductive Statement
  | letDecl (name : String) (isMut : Bool) (tyAnn : Option Ty) (expr : Expr)
  | returnStmt (expr : Option Expr)
  | exprStmt (expr : Expr) (hasSemi : Bool)
  | forLoop (iter : String) (iterable : Expr) (invariants : List Expr) (body : List Statement) (across : Bool)
  | assign (lhs rhs : Expr)
  | compoundAssign (lhs : Expr) (op : BinaryOp) (rhs : Expr) (operandTy : Option ElementType)
  | assertStmt (expr : Expr)
  | loopStmt (invariants : List Expr) (body : List Statement)
  | breakStmt (tasksValue : Option Expr)
  | continueStmt
  | macroCall (name : String)
  | drop (name : String) (path : List String) (endsLifetime : Bool)
  | error

end

mutual

def patternNames : Pattern → List String
  | .wildcard | .literal _ => []
  | .identifier name => [name]
  | .enumVariant _ _ payload => patternsNames payload

def patternsNames : List Pattern → List String
  | [] => []
  | p :: ps => patternNames p ++ patternsNames ps

end

def digitValue (c : Char) : Option ℕ :=
  if '0' ≤ c ∧ c ≤ '9' then some (c.toNat - '0'.toNat) else none

def digitsValue (acc : ℕ) : List Char → Option ℕ
  | [] => some acc
  | c :: cs => do digitsValue (10 * acc + (← digitValue c)) cs

def literalValue (text : String) : Option ℕ :=
  if text.toList = [] then none else digitsValue 0 text.toList

end Vx
