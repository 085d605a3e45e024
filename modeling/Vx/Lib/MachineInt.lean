import Mathlib

namespace Vx.Lib.MachineInt

def toI32 (i : ℤ) : ℤ := i.bmod (2 ^ 32)

theorem toI32_eq {i : ℤ} (hlow : -2 ^ 31 ≤ i) (hhigh : i < 2 ^ 31) : toI32 i = i := by
  unfold toI32
  rw [Int.bmod_eq_of_le] <;> omega

theorem toI32_add_toI32 (i j : ℤ) : toI32 (toI32 i + j) = toI32 (i + j) := by
  simp [toI32]

def toI64 (i : ℤ) : ℤ := i.bmod (2 ^ 64)

theorem toI64_eq {i : ℤ} (hlow : -2 ^ 63 ≤ i) (hhigh : i < 2 ^ 63) : toI64 i = i := by
  unfold toI64
  rw [Int.bmod_eq_of_le] <;> omega

def toI128 (i : ℤ) : ℤ := i.bmod (2 ^ 128)

def InI128 (i : ℤ) : Prop := -2 ^ 127 ≤ i ∧ i < 2 ^ 127

theorem toI128_eq {i : ℤ} (h : InI128 i) : toI128 i = i := by
  obtain ⟨hlow, hhigh⟩ := h
  unfold toI128
  rw [Int.bmod_eq_of_le] <;> omega

end Vx.Lib.MachineInt
