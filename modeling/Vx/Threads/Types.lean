import Vx.Lib.TaggedKey

namespace Vx.Threads

open Lib.TaggedKey (Text)

inductive BinaryOp
  | Add | Sub | Mul | MatMul | Div | Rem | BitAnd | BitOr | BitXor | Shl | Shr
deriving DecidableEq

inductive RelationalOp
  | Eq | NotEq | Lt | Gt | Le | Ge
deriving DecidableEq

inductive LogicalOp
  | And | Or
deriving DecidableEq

inductive UnaryOp
  | Not | Neg | Try
deriving DecidableEq

inductive Expr
  | number (value : Text)
  | identifier (name : Text)
  | stringLiteral (value : Text)
  | binaryOp (op : BinaryOp) (lhs rhs : Expr)
  | unaryOp (op : UnaryOp) (expr : Expr)
  | relationalOp (op : RelationalOp) (lhs rhs : Expr)
  | logicalOp (op : LogicalOp) (lhs rhs : Expr)
  | memberAccess (base : Expr) (member : Text)
  | indexAccess (base index : Expr)
  | other (debug : Text)
deriving DecidableEq

structure Host where
  Float : Type
  parse : Text → Option Float

def asciiHost : Host where
  Float := Unit
  parse _ := none

inductive Element
  | f16 | f32 | f64 | bf16 | f8e4m3 | f8e5m2 | f4e2m1
  | i4 | u4 | i8 | u8 | i16 | u16 | i32 | u32 | i64 | u64 | i128 | u128 | usize | bool
  | generic (name : Text)
deriving DecidableEq

inductive MemorySpace
  | CPUDRAM | NPUHBM | GpuHbm | LocalSRAM | NicRam | RemoteHbm
  | Custom (name : Text)
deriving DecidableEq

inductive Topology
  | CPU
  | NPU (index : Expr)
  | AccCore (index : Expr)
  | AMX
  | ANE
  | GPU (index : Expr)
  | CpuAvx512
  | CpuNeon
  | Slice (base : Topology) (start stop : Expr)
  | Custom (name : Text)
  | Current
deriving DecidableEq

structure Placement where
  topology : Topology
  space : MemorySpace
  alignment : Option ℕ
deriving DecidableEq

inductive Dim
  | static (expr : Expr)
  | dyn
deriving DecidableEq

inductive Ty
  | tensor (el : Element) (dims : List Dim) (place : Option Placement)
  | matrix
  | ref (inner : Ty) (space : MemorySpace)
  | borrow (inner : Ty) (space : Option MemorySpace) (isMut : Bool) (region : ℕ)
  | pointer (inner : Ty) (place : Option Placement) (isMut : Bool)
  | scalar (el : Element)
  | struct (name : Text)
  | enum (name : Text)
  | verified (inner : Ty)
  | pinned (inner : Ty) (topology : Topology)
  | generic (name : Text)
  | genericInstance (base : Ty) (args : List Ty)
  | module (name : Text)
  | simd (el : Element) (lanes : ℕ)
  | function (params : List Ty) (result : Ty) (isUnsafe : Bool)
  | closure (params : List Ty) (result : Ty)
  | const (expr : Expr)
  | unknown

end Vx.Threads
