import Vx.Ast
import Vx.Fleet.Model

namespace Vx.Fleet

open Lib.CText Lib.MachineInt

inductive Topology
  | cpu
  | npu (index : Expr)
  | accCore (index : Expr)
  | amx
  | ane
  | gpu (index : Expr)
  | cpuAvx512
  | cpuNeon
  | slice (base : Topology) (start stop : Expr)
  | custom (name : String)
  | current

inductive TopologyKind
  | cpu | npu | accCore | amx | ane | gpu | cpuAvx512 | cpuNeon | slice | custom (name : String) | current
deriving DecidableEq, Repr

def TopologyKind.fromName (name : String) : TopologyKind :=
  if name = "CPU" then .cpu
  else if name = "NPU" then .npu
  else if name = "AccCore" then .accCore
  else if name = "AMX" then .amx
  else if name = "ANE" then .ane
  else if name = "GPU" then .gpu
  else if name = "CpuAvx512" ∨ name = "CPU_AVX512" then .cpuAvx512
  else if name = "CpuNeon" ∨ name = "CPU_Neon" then .cpuNeon
  else if name = "Current" then .current
  else .custom name

namespace Topology

def kind : Topology → TopologyKind
  | cpu => .cpu
  | npu _ => .npu
  | accCore _ => .accCore
  | amx => .amx
  | ane => .ane
  | gpu _ => .gpu
  | cpuAvx512 => .cpuAvx512
  | cpuNeon => .cpuNeon
  | slice _ _ _ => .slice
  | custom name => .custom name
  | current => .current

def indexName : Expr → String
  | .number value _ => value
  | .identifier name => name
  | _ => "?"

def displayName : Topology → String
  | cpu => "CPU"
  | npu e => "NPU[" ++ indexName e ++ "]"
  | accCore e => "AccCore[" ++ indexName e ++ "]"
  | amx => "AMX"
  | ane => "ANE"
  | gpu e => "GPU[" ++ indexName e ++ "]"
  | cpuAvx512 => "CpuAvx512"
  | cpuNeon => "CpuNeon"
  | slice base start stop => base.displayName ++ "[" ++ indexName start ++ ".." ++ indexName stop ++ "]"
  | custom name => name
  | current => "Current"

end Topology

def checkedI32 (i : ℤ) : Option ℤ := if -2 ^ 31 ≤ i ∧ i < 2 ^ 31 then some i else none

def parseI32 (text : String) : Option ℤ :=
  match text.toList with
  | '-' :: digits => (unsigned digits).bind fun n => checkedI32 (-n)
  | '+' :: digits => (unsigned digits).bind fun n => checkedI32 n
  | digits => (unsigned digits).bind fun n => checkedI32 n
where
  unsigned (digits : List Char) : Option ℕ := if digits = [] then none else digitsValue 0 digits

def bitwise (op : BitVec 32 → BitVec 32 → BitVec 32) (l r : ℤ) : ℤ :=
  (op (BitVec.ofInt 32 l) (BitVec.ofInt 32 r)).toInt

/-- One operation of `const_topology_index` on two `i32`s: `none` where it panics, as the division of the least
number by `-1` does. -/
def foldOp (op : BinaryOp) (l r : ℤ) : Option (Option ℤ) :=
  match op with
  | .add => some (checkedI32 (l + r))
  | .sub => some (checkedI32 (l - r))
  | .mul => some (checkedI32 (l * r))
  | .div => if r = 0 then some none else (checkedI32 (l.tdiv r)).map some
  | .rem => if r = 0 then some none else (checkedI32 (l.tdiv r)).map fun _ => some (l.tmod r)
  | .bitAnd => some (some (bitwise (· &&& ·) l r))
  | .bitOr => some (some (bitwise (· ||| ·) l r))
  | .bitXor => some (some (bitwise (· ^^^ ·) l r))
  | .shl => some (if 0 ≤ r ∧ r < 32 then some (toI32 (l * 2 ^ r.toNat)) else none)
  | .shr => some (if 0 ≤ r ∧ r < 32 then some (l / 2 ^ r.toNat) else none)
  | .matMul => some none

def constTopologyIndex : Expr → Option (Option ℤ)
  | .number value _ => some (parseI32 value)
  | .binaryOp lhs op rhs _ =>
    (constTopologyIndex lhs).bind fun
      | none => some none
      | some l => (constTopologyIndex rhs).bind fun
        | none => some none
        | some r => foldOp op l r
  | _ => some none

def topologyIndex (e : Expr) : Option ℤ := (constTopologyIndex e).map fun index => index.getD 0

def compilerFnv32 (s : String) : UInt32 :=
  (utf8 s).foldl (fun hash b => (hash ^^^ b.toUInt32) * 16777619) 2166136261

def customDispatchIdBase : ℤ := 3000

def customDispatchIdSpan : UInt32 := 2147483647 - 3000 + 1

def fnvDispatchId (name : String) : ℤ :=
  customDispatchIdBase + (compilerFnv32 name % customDispatchIdSpan).toNat

def topologyDispatchId : Topology → Option ℤ
  | .cpu => some 0
  | .current => some 0
  | .npu e => (topologyIndex e).map fun index => toI32 (100 + index)
  | .accCore e => (topologyIndex e).map fun index => toI32 (200 + index)
  | .amx => some 300
  | .ane => some 400
  | .gpu e => (topologyIndex e).map fun index => toI32 (500 + index)
  | .cpuAvx512 => some 600
  | .cpuNeon => some 700
  | .slice base start stop => do
    let key := toString (← topologyDispatchId base) ++ ":" ++ toString (← topologyIndex start) ++ ":"
      ++ toString (← topologyIndex stop)
    return 2000 + (compilerFnv32 key % 1000).toNat
  | .custom name => some (fnvDispatchId name)

end Vx.Fleet
