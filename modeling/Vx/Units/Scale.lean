import Mathlib

/-!
`scale_exact` of `units.rs`: a decimal figure times the factor of its unit, in 128-bit words.
-/

namespace Vx.Units

open List

inductive UnitError
  | malformed | overflow | notWholeBytes
  deriving DecidableEq

def splitOnce (sep : Char) : List Char → Option (List Char × List Char)
  | [] => none
  | c :: cs => if c = sep then some ([], cs) else (splitOnce sep cs).map fun (before, after) => (c :: before, after)

/-- The number that digits denote, the first one the most significant. -/
def number (digits : List Char) : ℕ := Nat.ofDigits 10 (digits.map fun c => c.toNat - 48).reverse

def checked (limit n : ℕ) (error : UnitError) : Except UnitError ℕ := if n < limit then .ok n else .error error

def scaleExact (mantissa : List Char) (factor : ℕ) : Except UnitError ℕ := do
  let (intPart, fracPart) := (splitOnce '.' mantissa).getD (mantissa, [])
  if intPart = [] ∧ fracPart = [] then throw .malformed
  if ¬ intPart.all Char.isDigit ∨ ¬ fracPart.all Char.isDigit then throw .malformed
  let digits ← checked (2 ^ 128) (number (intPart ++ fracPart)) .malformed
  let places ← checked (2 ^ 32) fracPart.length .malformed
  let scale ← checked (2 ^ 128) (10 ^ places) .malformed
  let numerator ← checked (2 ^ 128) (digits * factor) .overflow
  if numerator % scale ≠ 0 then throw .notWholeBytes
  checked (2 ^ 64) (numerator / scale) .overflow

/-- Decimal digits with at most one point, at most 38 digits in all. -/
structure Mantissa where
  intPart : List Char
  fracPart : List Char
  point : Bool
  digits : (intPart ++ fracPart).all Char.isDigit
  whole : point = false → fracPart = []
  nonempty : intPart ++ fracPart ≠ []
  length_le : (intPart ++ fracPart).length ≤ 38

namespace Mantissa

variable (m : Mantissa) (factor : ℕ)

def text : List Char := if m.point then m.intPart ++ '.' :: m.fracPart else m.intPart

def value : ℚ := number (m.intPart ++ m.fracPart) / 10 ^ m.fracPart.length

def numerator : ℕ := number (m.intPart ++ m.fracPart) * factor

def scale : ℕ := 10 ^ m.fracPart.length

theorem isDigit_of_mem {c : Char} (hc : c ∈ m.intPart ++ m.fracPart) : c.isDigit := all_eq_true.mp m.digits c hc

theorem number_lt : number (m.intPart ++ m.fracPart) < 2 ^ 128 := by
  have hdigit : ∀ d ∈ ((m.intPart ++ m.fracPart).map fun c => c.toNat - 48).reverse, d < 10 := by
    intro d hd
    obtain ⟨c, hc, rfl⟩ := List.mem_map.mp (List.mem_reverse.mp hd)
    have hle := m.isDigit_of_mem hc
    simp only [Char.isDigit, Bool.and_eq_true, decide_eq_true_eq, UInt32.le_iff_toNat_le] at hle
    have hnine : '9'.val.toNat = 57 := rfl
    have hcode : c.toNat = c.val.toNat := rfl
    omega
  have hlt := Nat.ofDigits_lt_base_pow_length (by decide) hdigit
  rw [length_reverse, length_map] at hlt
  calc number (m.intPart ++ m.fracPart) < 10 ^ (m.intPart ++ m.fracPart).length := hlt
    _ ≤ 10 ^ 38 := Nat.pow_le_pow_right (by decide) m.length_le
    _ < 2 ^ 128 := by decide

theorem splitOnce_append {sep : Char} {before : List Char} (h : sep ∉ before) (after : List Char) :
    splitOnce sep (before ++ sep :: after) = some (before, after) := by
  induction before with
  | nil => simp [splitOnce]
  | cons c cs ih =>
    rw [mem_cons, not_or] at h
    simp [splitOnce, Ne.symm h.1, ih h.2]

theorem splitOnce_eq_none {sep : Char} {text : List Char} (h : sep ∉ text) : splitOnce sep text = none := by
  induction text with
  | nil => rfl
  | cons c cs ih =>
    rw [mem_cons, not_or] at h
    simp [splitOnce, Ne.symm h.1, ih h.2]

theorem splitOnce_text : (splitOnce '.' m.text).getD (m.text, []) = (m.intPart, m.fracPart) := by
  have hpoint : '.' ∉ m.intPart := by
    intro h
    exact absurd (m.isDigit_of_mem (mem_append_left _ h)) (by decide)
  cases hp : m.point with
  | true => simp [text, hp, splitOnce_append hpoint]
  | false => simp [text, hp, splitOnce_eq_none hpoint, m.whole hp]

theorem scaleExact_text : scaleExact m.text factor = if m.numerator factor < 2 ^ 128 then
      if m.numerator factor % m.scale ≠ 0 then .error .notWholeBytes
      else checked (2 ^ 64) (m.numerator factor / m.scale) .overflow else .error .overflow := by
  have hempty : ¬ (m.intPart = [] ∧ m.fracPart = []) := fun h => m.nonempty (by simp [h.1, h.2])
  have hall : ¬ (¬ m.intPart.all Char.isDigit ∨ ¬ m.fracPart.all Char.isDigit) := by
    simp only [all_eq_true, not_or, not_not]
    exact ⟨fun c hc => m.isDigit_of_mem (mem_append_left _ hc), fun c hc => m.isDigit_of_mem (mem_append_right _ hc)⟩
  have hplaces : m.fracPart.length ≤ 38 := by
    have h := m.length_le
    rw [length_append] at h
    omega
  have hscale : 10 ^ m.fracPart.length < 2 ^ 128 := (Nat.pow_le_pow_right (by decide) hplaces).trans_lt (by decide)
  have hsmall : m.fracPart.length < 2 ^ 32 := hplaces.trans_lt (by decide)
  rw [scaleExact, splitOnce_text]
  simp only [if_neg hempty, if_neg hall, checked, if_pos m.number_lt, if_pos hsmall, if_pos hscale, bind, Except.bind]
  rw [← numerator, ← scale]
  by_cases hnum : m.numerator factor < 2 ^ 128
  · simp only [if_pos hnum]
    split <;> rfl
  · simp only [if_neg hnum]

theorem scale_pos : 0 < m.scale := Nat.pow_pos (by decide)

theorem value_mul : m.value * factor = m.numerator factor / m.scale := by
  simp only [value, numerator, scale]
  push_cast
  ring

theorem exact_iff {b : ℕ} :
    m.value * factor = b ↔ m.numerator factor % m.scale = 0 ∧ m.numerator factor / m.scale = b := by
  have hcast : m.value * factor = b ↔ m.numerator factor = b * m.scale := by
    rw [value_mul, div_eq_iff (by exact_mod_cast m.scale_pos.ne')]
    exact_mod_cast Iff.rfl
  rw [hcast]
  constructor
  · intro h
    rw [h, Nat.mul_mod_left, Nat.mul_div_cancel _ m.scale_pos]
    exact ⟨rfl, rfl⟩
  · rintro ⟨hmod, rfl⟩
    exact (Nat.div_mul_cancel (Nat.dvd_of_mod_eq_zero hmod)).symm

theorem large_iff : 2 ^ 64 ≤ m.value * factor ↔ 2 ^ 64 ≤ m.numerator factor / m.scale := by
  rw [value_mul, le_div_iff₀ (by exact_mod_cast m.scale_pos), Nat.le_div_iff_mul_le m.scale_pos]
  exact_mod_cast Iff.rfl

structure ScalesExactly : Prop where
  ok : ∀ b, scaleExact m.text factor = .ok b ↔ m.value * factor = b ∧ b < 2 ^ 64
  notWhole : scaleExact m.text factor = .error .notWholeBytes ↔ ¬ ∃ b : ℕ, m.value * factor = b
  overflow : scaleExact m.text factor = .error .overflow → 2 ^ 64 ≤ m.value * factor

theorem scalesExactly_of_lt (h : m.numerator factor < 2 ^ 128) : ScalesExactly m factor := by
  constructor
  all_goals
    simp only [scaleExact_text, if_pos h, exact_iff, large_iff, checked]
    split
  · simp_all
  · intro b
    grind
  · simp_all
  · grind
  · simp
  · grind

/-- Past 128 bits the answer is `Overflow`, which is right only for a whole number of bytes that does not fit. -/
theorem scalesExactly_iff : ScalesExactly m factor ↔ m.numerator factor < 2 ^ 128 ∨
    m.numerator factor % m.scale = 0 ∧ 2 ^ 64 ≤ m.numerator factor / m.scale := by
  by_cases hnum : m.numerator factor < 2 ^ 128
  · exact iff_of_true (m.scalesExactly_of_lt factor hnum) (.inl hnum)
  have herror : scaleExact m.text factor = .error .overflow := by rw [scaleExact_text, if_neg hnum]
  constructor
  · intro h
    refine .inr ⟨?_, (m.large_iff factor).mp (h.overflow herror)⟩
    by_contra hmod
    have hnot := h.notWhole.mpr fun ⟨b, hb⟩ => hmod ((m.exact_iff factor).mp hb).1
    rw [herror] at hnot
    cases hnot
  · rintro (h | ⟨hmod, hle⟩)
    · exact absurd h hnum
    refine ⟨fun b => ?_, ?_, fun _ => (m.large_iff factor).mpr hle⟩
    · rw [herror, exact_iff]
      constructor
      · intro h
        cases h
      · rintro ⟨⟨-, rfl⟩, hlt⟩
        exact absurd hlt hle.not_gt
    · rw [herror]
      constructor
      · intro h
        cases h
      · intro h
        exact absurd ⟨_, (m.exact_iff factor).mpr ⟨hmod, rfl⟩⟩ h

/-- `1.000…0 KiB` with 37 zeros is 1024 bytes, and is refused as too large. -/
def paddedOne : Mantissa where
  intPart := ['1']
  fracPart := List.replicate 37 '0'
  point := true
  digits := by decide
  whole := by decide
  nonempty := by decide
  length_le := by decide

theorem padded_one_overflows : scaleExact paddedOne.text 1024 = .error .overflow ∧ paddedOne.value * 1024 = 1024 := by
  refine ⟨by decide, ?_⟩
  have hvalue := (paddedOne.exact_iff 1024 (b := 1024)).mpr (by decide)
  exact_mod_cast hvalue

end Mantissa

end Vx.Units
