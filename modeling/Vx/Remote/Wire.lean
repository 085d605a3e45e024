import Vx.Remote.ViewCopy

/-!
The arguments of a dispatch as they travel: the tags of `vx_hardware_runtime.h`, and the reader and the writer of
`vx_wire.h`. A reader is the bytes that are left, and a tag is the 32 bits of its integer.
-/

namespace Vx.Remote

open Option

def abiKind (tag : ℕ) : ℕ := tag % 256

def abiElem (tag : ℕ) : ℕ := tag / 2 ^ 8 % 256

def abiRank (tag : ℕ) : ℕ := tag / 2 ^ 16 % 256

def abiIsSlot (tag : ℕ) : Bool := tag / 2 ^ 24 % 2 = 1

def abiKindMemref : ℕ := 0

def Dtype.ofCode : ℕ → Dtype
  | 1 => .i1
  | 2 => .i8
  | 3 => .i16
  | 4 => .i32
  | 5 => .i64
  | 6 => .f32
  | 7 => .f64
  | 8 => .f16
  | 9 => .bf16
  | _ => .unknown

abbrev Bytes := List UInt8

def wireGet (n : ℕ) (r : Bytes) : Option (Bytes × Bytes) :=
  if n ≤ r.length then some (r.take n, r.drop n) else none

def littleEndian : Bytes → ℕ
  | [] => 0
  | b :: bytes => b.toNat + 2 ^ 8 * littleEndian bytes

def wireGetU32 (r : Bytes) : Option (ℕ × Bytes) := (wireGet 4 r).map fun (b, r) => (littleEndian b, r)

def wireGetU64 (r : Bytes) : Option (ℕ × Bytes) := do
  let (lo, r) ← wireGetU32 r
  let (hi, r) ← wireGetU32 r
  return (lo + 2 ^ 32 * hi, r)

def wireGetI32 (r : Bytes) : Option (ℤ × Bytes) := (wireGetU32 r).map fun (v, r) => ((v : ℤ).bmod (2 ^ 32), r)

def wireGetI64 (r : Bytes) : Option (ℤ × Bytes) := (wireGetU64 r).map fun (v, r) => ((v : ℤ).bmod (2 ^ 64), r)

def wireGetI64s : ℕ → Bytes → Option (List ℤ × Bytes)
  | 0, r => some ([], r)
  | n + 1, r => do
    let (v, r) ← wireGetI64 r
    let (vs, r) ← wireGetI64s n r
    return (v :: vs, r)

structure TaggedArg where
  tag : ℕ
  scalar : Bytes
  handle : ℕ
  rank : ℕ
  sizes : List ℤ
  strides : List ℤ
deriving DecidableEq

def wireGetExtents (r : Bytes) : Option ((ℕ × List ℤ × List ℤ) × Bytes) := do
  let (rank, r) ← wireGetI32 r
  if rank < 0 ∨ rank > abiMaxRank then none
  else
    let (sizes, r) ← wireGetI64s rank.toNat r
    let (strides, r) ← wireGetI64s rank.toNat r
    return ((rank.toNat, sizes, strides), r)

def wireGetArg (r : Bytes) : Option (TaggedArg × Bytes) := do
  let (tag, r) ← wireGetU32 r
  if abiIsSlot tag then
    let (handle, r) ← wireGetU64 r
    if handle = 0 then return (⟨tag, [], 0, 0, [], []⟩, r)
    else
      let ((rank, sizes, strides), r) ← wireGetExtents r
      return (⟨tag, [], handle, rank, sizes, strides⟩, r)
  else if abiKind tag ≠ abiKindMemref then
    let n := (Dtype.ofCode (abiKind tag)).bytes
    if n = 0 then none
    else
      let (scalar, r) ← wireGet n r
      return (⟨tag, scalar, 0, 0, [], []⟩, r)
  else
    let (handle, r) ← wireGetU64 r
    let ((rank, sizes, strides), r) ← wireGetExtents r
    if rank ≠ abiRank tag then none else return (⟨tag, [], handle, rank, sizes, strides⟩, r)

def wireGetArgs : ℕ → Bytes → Option (List TaggedArg × Bytes)
  | 0, r => some ([], r)
  | n + 1, r => do
    let (arg, r) ← wireGetArg r
    let (args, r) ← wireGetArgs n r
    return (arg :: args, r)

def wireGetDispatch (r : Bytes) : Option ((Bytes × ℕ) × Bytes) := do
  let (payloadLen, r) ← wireGetU64 r
  let (payload, r) ← wireGet payloadLen r
  let (numArgs, r) ← wireGetI64 r
  if numArgs < 0 ∨ numArgs.toNat * 4 % addressSpace > r.length then none
  else return ((payload, numArgs.toNat), r)

def wirePutU32 (v : ℕ) : Bytes := [0, 8, 16, 24].map fun shift => UInt8.ofNat (v / 2 ^ shift)

def wirePutU64 (v : ℕ) : Bytes := wirePutU32 (v % 2 ^ 32) ++ wirePutU32 (v / 2 ^ 32)

def wirePutI64 (v : ℤ) : Bytes := wirePutU64 (v % 2 ^ 64).toNat

def wirePutArg (a : TaggedArg) : Bytes :=
  let extents := wirePutU32 a.rank ++ a.sizes.flatMap wirePutI64 ++ a.strides.flatMap wirePutI64
  wirePutU32 a.tag ++
    if abiIsSlot a.tag then wirePutU64 a.handle ++ if a.handle ≠ 0 then extents else []
    else if abiKind a.tag ≠ abiKindMemref then
      let n := (Dtype.ofCode (abiKind a.tag)).bytes
      a.scalar.take (if n = 0 then 8 else n)
    else wirePutU64 a.handle ++ extents

def wirePutDispatch (payload : Bytes) (args : List TaggedArg) : Bytes :=
  wirePutU64 payload.length ++ payload ++ wirePutI64 args.length ++ args.flatMap wirePutArg

variable {r r' : Bytes}

theorem wireGetI64s_length {n : ℕ} {vs : List ℤ} (h : wireGetI64s n r = some (vs, r')) : vs.length = n := by
  induction n generalizing r vs with
  | zero =>
    cases h
    rfl
  | succ n ih =>
    simp only [wireGetI64s, bind_eq_bind, bind_eq_some_iff] at h
    obtain ⟨⟨v, r₁⟩, -, ⟨vs', r₂⟩, hvs, heq⟩ := h
    cases heq
    rw [List.length_cons, ih hvs]

structure TaggedArg.Formed (a : TaggedArg) : Prop where
  rank_le : a.rank ≤ abiMaxRank
  sizes_length : a.sizes.length = a.rank
  strides_length : a.strides.length = a.rank
  memref : abiIsSlot a.tag = false → abiKind a.tag = abiKindMemref → a.rank = abiRank a.tag

theorem wireGetExtents_some {rank : ℕ} {sizes strides : List ℤ}
    (h : wireGetExtents r = some ((rank, sizes, strides), r')) :
    rank ≤ abiMaxRank ∧ sizes.length = rank ∧ strides.length = rank := by
  simp only [wireGetExtents, bind_eq_bind, bind_eq_some_iff] at h
  obtain ⟨⟨v, r₁⟩, -, h⟩ := h
  split at h
  · cases h
  next hrank =>
    simp only [bind_eq_some_iff] at h
    obtain ⟨⟨sizes', r₂⟩, hsizes, ⟨strides', r₃⟩, hstrides, heq⟩ := h
    cases heq
    exact ⟨by omega, wireGetI64s_length hsizes, wireGetI64s_length hstrides⟩

theorem wireGetArg_formed {a : TaggedArg} (h : wireGetArg r = some (a, r')) : a.Formed := by
  simp only [wireGetArg, bind_eq_bind, bind_eq_some_iff] at h
  obtain ⟨⟨tag, r₁⟩, -, h⟩ := h
  split at h
  next hslot =>
    simp only [bind_eq_some_iff] at h
    obtain ⟨⟨handle, r₂⟩, -, h⟩ := h
    split at h
    · cases h
      exact ⟨Nat.zero_le _, rfl, rfl, fun hno => absurd (hno.symm.trans hslot) (by decide)⟩
    simp only [bind_eq_some_iff] at h
    obtain ⟨⟨⟨rank, sizes, strides⟩, r₃⟩, hext, heq⟩ := h
    cases heq
    obtain ⟨hrank, hsizes, hstrides⟩ := wireGetExtents_some hext
    exact ⟨hrank, hsizes, hstrides, fun hno => absurd (hno.symm.trans hslot) (by decide)⟩
  next =>
    split at h
    next hkind =>
      split at h
      · cases h
      simp only [bind_eq_some_iff] at h
      obtain ⟨⟨scalar, r₂⟩, -, heq⟩ := h
      cases heq
      exact ⟨Nat.zero_le _, rfl, rfl, fun _ hmemref => absurd hmemref hkind⟩
    next =>
      simp only [bind_eq_some_iff] at h
      obtain ⟨⟨handle, r₂⟩, -, ⟨⟨rank, sizes, strides⟩, r₃⟩, hext, h⟩ := h
      split at h
      · cases h
      next heq =>
        cases h
        obtain ⟨hrank, hsizes, hstrides⟩ := wireGetExtents_some hext
        exact ⟨hrank, hsizes, hstrides, fun _ _ => not_not.mp heq⟩

theorem wireGetArgs_formed {n : ℕ} {args : List TaggedArg} (h : wireGetArgs n r = some (args, r')) :
    ∀ a ∈ args, a.Formed := by
  induction n generalizing r args with
  | zero =>
    cases h
    simp
  | succ n ih =>
    simp only [wireGetArgs, bind_eq_bind, bind_eq_some_iff] at h
    obtain ⟨⟨a, r₁⟩, ha, ⟨args', r₂⟩, hargs, heq⟩ := h
    cases heq
    intro a' ha'
    rcases List.mem_cons.mp ha' with rfl | hmem
    · exact wireGetArg_formed ha
    · exact ih hargs a' hmem

end Vx.Remote
