import Mathlib

namespace Vx.Lib.TaggedKey

abbrev Text := List Char

instance lawfulText : LawfulBEq (List Char) := inferInstance

def decimal (n : ℕ) : Text := Nat.toDigits 10 n

theorem decimal_inj {m n : ℕ} (h : decimal m = decimal n) : m = n := by
  have hvalue : ∀ n, Nat.ofDigitChars 10 (decimal n) 0 = n := fun n => Nat.ofDigitChars_toDigits (by decide) (by decide)
  rw [← hvalue m, h, hvalue n]

end Vx.Lib.TaggedKey
