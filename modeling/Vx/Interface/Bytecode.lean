import Vx.Pipeline.Gid

namespace Vx.Interface

open Pipeline (Word)

inductive Opcode
  | nop | const | load | store | add | sub | mul | div | call | ret | matmul | cmp | cast | neg | not
  | alloca | slotLoad | br | condBr | blockStart | spawn | spawnEnd | fieldLoad | fieldStore | tensorIndex
  | tensorAlloc | tensorStore | transfer | arg | print | printStr | stringConst | ptrIndex | ptrStore
  | funcConst | callIndirect | fieldAddr | abort | barrier | matmulInto | autoDiff | tensorLoad | tensorDim
  | tensorZero | tensorFill | tensorView | inlineMlir | tensorReshape | tensorTranspose | tensorMap | rem
  | bitAnd | bitOr | bitXor | shl | shr | tensorReduce | tensorClone | constTable | tensorDataPtr
  | tensorDrop | tensorPad | launchDim | acrossId | acrossRegion | affineFor | affineForEnd | loopHint
  | enumPayloadLoad | laneReduce | printStream | tasksWait | regionExit | taskFailed | cancelOff | cancelOn
  | taskJoin | lifetimeStart | lifetimeEnd | tensorElementAddress | checkAggregate
deriving DecidableEq, Repr

namespace Opcode

def code : Opcode → ℕ
  | .nop => 0 | .const => 1 | .load => 2 | .store => 3 | .add => 4 | .sub => 5 | .mul => 6 | .div => 7
  | .call => 8 | .ret => 9 | .matmul => 10 | .cmp => 11 | .cast => 12 | .neg => 13 | .not => 14
  | .alloca => 15 | .slotLoad => 16 | .br => 17 | .condBr => 18 | .blockStart => 19 | .spawn => 20
  | .spawnEnd => 21 | .fieldLoad => 22 | .fieldStore => 23 | .tensorIndex => 24 | .tensorAlloc => 26
  | .tensorStore => 27 | .transfer => 28 | .arg => 29 | .print => 30 | .printStr => 31 | .stringConst => 32
  | .ptrIndex => 33 | .ptrStore => 34 | .funcConst => 35 | .callIndirect => 36 | .fieldAddr => 37
  | .abort => 38 | .barrier => 39 | .matmulInto => 40 | .autoDiff => 42 | .tensorLoad => 43
  | .tensorDim => 44 | .tensorZero => 45 | .tensorFill => 46 | .tensorView => 47 | .inlineMlir => 48
  | .tensorReshape => 49 | .tensorTranspose => 50 | .tensorMap => 51 | .rem => 52 | .bitAnd => 53
  | .bitOr => 54 | .bitXor => 55 | .shl => 56 | .shr => 57 | .tensorReduce => 58 | .tensorClone => 59
  | .constTable => 60 | .tensorDataPtr => 61 | .tensorDrop => 62 | .tensorPad => 63 | .launchDim => 64
  | .acrossId => 65 | .acrossRegion => 66 | .affineFor => 67 | .affineForEnd => 68 | .loopHint => 69
  | .enumPayloadLoad => 70 | .laneReduce => 71 | .printStream => 72 | .tasksWait => 73 | .regionExit => 74
  | .taskFailed => 75 | .cancelOff => 76 | .cancelOn => 77 | .taskJoin => 78 | .lifetimeStart => 79
  | .lifetimeEnd => 80 | .tensorElementAddress => 81 | .checkAggregate => 84

def fromU32 : ℕ → Option Opcode
  | 0 => some .nop | 1 => some .const | 2 => some .load | 3 => some .store | 4 => some .add | 5 => some .sub
  | 6 => some .mul | 7 => some .div | 52 => some .rem | 53 => some .bitAnd | 54 => some .bitOr
  | 55 => some .bitXor | 56 => some .shl | 57 => some .shr | 58 => some .tensorReduce
  | 59 => some .tensorClone | 60 => some .constTable | 61 => some .tensorDataPtr | 62 => some .tensorDrop
  | 64 => some .launchDim | 65 => some .acrossId | 66 => some .acrossRegion | 67 => some .affineFor
  | 68 => some .affineForEnd | 69 => some .loopHint | 70 => some .enumPayloadLoad | 71 => some .laneReduce
  | 79 => some .lifetimeStart | 80 => some .lifetimeEnd | 84 => some .checkAggregate | 8 => some .call
  | 9 => some .ret | 10 => some .matmul | 11 => some .cmp | 12 => some .cast | 13 => some .neg
  | 14 => some .not | 15 => some .alloca | 16 => some .slotLoad | 17 => some .br | 18 => some .condBr
  | 19 => some .blockStart | 20 => some .spawn | 21 => some .spawnEnd | 22 => some .fieldLoad
  | 23 => some .fieldStore | 24 => some .tensorIndex | 26 => some .tensorAlloc | 27 => some .tensorStore
  | 28 => some .transfer | 29 => some .arg | 30 => some .print | 31 => some .printStr
  | 32 => some .stringConst | 33 => some .ptrIndex | 34 => some .ptrStore | 35 => some .funcConst
  | 36 => some .callIndirect | 37 => some .fieldAddr | 38 => some .abort | 39 => some .barrier
  | 40 => some .matmulInto | 42 => some .autoDiff | 43 => some .tensorLoad | 44 => some .tensorDim
  | 45 => some .tensorZero | 46 => some .tensorFill | 47 => some .tensorView | 48 => some .inlineMlir
  | 49 => some .tensorReshape | 50 => some .tensorTranspose | 51 => some .tensorMap
  | 81 => some .tensorElementAddress | _ => none

end Opcode

structure HirInstruction where
  opcode : Opcode
  operand1 : BitVec 32
  operand2 : BitVec 32
  typeIdx : BitVec 32
  imm : Word
deriving DecidableEq, Repr

end Vx.Interface
