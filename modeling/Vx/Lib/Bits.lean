import Mathlib

namespace Vx.Lib.Bits

open BitVec

variable {w : ℕ} {k : ℕ}

theorem flag_clear_iff (x : BitVec w) (hk : k < w) : x &&& 1#w <<< k = 0#w ↔ x.getLsbD k = false := by
  rw [← twoPow_eq, and_twoPow]
  cases hx : x.getLsbD k with
  | false => simp
  | true =>
    have hne : BitVec.twoPow w k ≠ 0#w := by
      intro h
      have hb := congrArg (fun y => BitVec.getLsbD y k) h
      simp [hk] at hb
    simp [hne]

theorem getLsbD_setFlag (x : BitVec w) (hk : k < w) (j : ℕ) :
    (x ||| 1#w <<< k).getLsbD j = (x.getLsbD j || decide (j = k)) := by
  rw [← twoPow_eq, getLsbD_or, getLsbD_twoPow]
  by_cases hj : j = k
  · simp [hj, hk]
  · simp [hj, Ne.symm hj]

theorem getLsbD_clearFlag (x : BitVec w) (hk : k < w) (j : ℕ) :
    (x &&& ~~~(1#w <<< k)).getLsbD j = (x.getLsbD j && !decide (j = k)) := by
  rw [← twoPow_eq, getLsbD_and, getLsbD_not, getLsbD_twoPow]
  by_cases hj : j = k
  · simp [hj, hk]
  · by_cases hw : j < w
    · simp [hj, hw, Ne.symm hj]
    · simp [getLsbD_of_ge x j (by omega)]

theorem clearFlag_of_clear (x : BitVec w) (hk : k < w) (hx : x.getLsbD k = false) : x &&& ~~~(1#w <<< k) = x := by
  apply eq_of_getLsbD_eq
  intro j hj
  rw [getLsbD_clearFlag x hk]
  by_cases h : j = k <;> simp [h, hx]

theorem payload_of_topFlag (n : ℕ) (x : BitVec (n + 1)) (hx : x.getLsbD n = false) :
    (1#(n + 1) <<< n ||| x) &&& ~~~(1#(n + 1) <<< n) = x := by
  apply eq_of_getLsbD_eq
  intro j hj
  rw [getLsbD_clearFlag _ (by omega), BitVec.or_comm, getLsbD_setFlag x (by omega)]
  by_cases h : j = n
  · rw [h, hx]
    simp
  · simp [h]

theorem getLsbD_top_of_lt {n i : ℕ} (h : i < 2 ^ n) : (BitVec.ofNat (n + 1) i).getLsbD n = false := by
  rw [getLsbD_ofNat, Nat.testBit_lt_two_pow h, Bool.and_false]

end Vx.Lib.Bits
