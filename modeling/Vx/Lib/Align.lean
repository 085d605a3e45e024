import Mathlib

namespace Vx.Lib.Align

def isPowerOfTwo (n : ℕ) : Bool := n = 2 ^ n.log2

theorem isPowerOfTwo_iff {n : ℕ} : isPowerOfTwo n = true ↔ ∃ k, n = 2 ^ k := by
  simp only [isPowerOfTwo, decide_eq_true_eq]
  constructor
  · intro h
    exact ⟨_, h⟩
  · rintro ⟨k, rfl⟩
    rw [Nat.log2_two_pow]

def roundUp (n a : ℕ) : ℕ := (n + (a - 1)) / a * a

theorem dvd_roundUp (n a : ℕ) : a ∣ roundUp n a := Nat.dvd_mul_left a _

theorem le_roundUp {a : ℕ} (ha : 0 < a) (n : ℕ) : n ≤ roundUp n a := by
  have hsplit := Nat.div_add_mod (n + (a - 1)) a
  have hmod := Nat.mod_lt (n + (a - 1)) ha
  rw [roundUp, Nat.mul_comm]
  omega

theorem roundUp_le (n a : ℕ) : roundUp n a ≤ n + (a - 1) := Nat.div_mul_le_self _ a

/-- The mask of 64 bits clears the bits below the power of two. -/
theorem and_mask {x k : ℕ} (hx : x < 2 ^ 64) (hk : k ≤ 64) : x &&& (2 ^ 64 - 1 - (2 ^ k - 1)) = x / 2 ^ k * 2 ^ k := by
  have hle : 2 ^ k ≤ 2 ^ 64 := Nat.pow_le_pow_right (by decide) hk
  have hpos : 0 < 2 ^ k := Nat.two_pow_pos k
  apply Nat.eq_of_testBit_eq
  intro i
  rw [show 2 ^ 64 - 1 - (2 ^ k - 1) = 2 ^ 64 - (2 ^ k - 1 + 1) by omega, Nat.testBit_and,
    Nat.testBit_two_pow_sub_succ (by omega), Nat.testBit_two_pow_sub_one, Nat.testBit_mul_two_pow,
    Nat.testBit_div_two_pow]
  by_cases hi : k ≤ i
  · rw [Nat.sub_add_cancel hi]
    by_cases hlt : i < 64
    · simp [hi, hlt]
    have hbit : x.testBit i = false := by
      apply Nat.testBit_lt_two_pow
      exact hx.trans_le (Nat.pow_le_pow_right (by decide) (by omega))
    simp [hbit]
  · simp [hi, Nat.lt_of_not_le hi]

theorem dvd_of_le {a b : ℕ} (ha : ∃ k, a = 2 ^ k) (hb : ∃ k, b = 2 ^ k) (hle : a ≤ b) : a ∣ b := by
  obtain ⟨k, rfl⟩ := ha
  obtain ⟨l, rfl⟩ := hb
  exact Nat.pow_dvd_pow 2 ((Nat.pow_le_pow_iff_right (by decide)).mp hle)

theorem max_powerOfTwo {a b : ℕ} (ha : ∃ k, a = 2 ^ k) (hb : ∃ k, b = 2 ^ k) : ∃ k, max a b = 2 ^ k := by
  rcases max_choice a b with h | h
  · rwa [h]
  · rwa [h]

end Vx.Lib.Align
