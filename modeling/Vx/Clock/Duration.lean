import Mathlib

/-!
Durations of `core/time.vx`, as natural numbers of nanoseconds.
-/

namespace Vx.Clock

open Option Int

section

structure Duration where
  secs : ℕ
  nanos : ℕ
deriving DecidableEq

def u32 (n : ℕ) : ℕ := n % 2 ^ 32

def u64 (n : ℕ) : ℕ := n % 2 ^ 64

def sub32 (a b : ℕ) : ℕ := u32 (2 ^ 32 + a - b)

def sub64 (a b : ℕ) : ℕ := u64 (2 ^ 64 + a - b)

def zero : Duration := ⟨0, 0⟩

def maxValue : Duration := ⟨2 ^ 64 - 1, 999999999⟩

variable (d e : Duration) (rhs : ℕ)

def asMillis : Option ℕ :=
  if d.secs ≤ (2 ^ 64 - 1) / 1000 then some (u64 (u64 (d.secs * 1000) + d.nanos / 1000000)) else none

def asMicros : Option ℕ :=
  if d.secs ≤ (2 ^ 64 - 1) / 1000000 then some (u64 (u64 (d.secs * 1000000) + d.nanos / 1000)) else none

def asNanos : Option ℕ :=
  if d.secs ≤ 18446744073708 then some (u64 (u64 (d.secs * 1000000000) + d.nanos)) else none

def asNanosI64 : ℤ :=
  if d.secs ≥ 9223372036 then 9223372036854775807
  else (((d.secs : ℤ).bmod (2 ^ 64) * 1000000000).bmod (2 ^ 64) + d.nanos).bmod (2 ^ 64)

def checkedAdd : Option Duration :=
  let total := u32 (d.nanos + e.nanos)
  let nanos := if total ≥ 1000000000 then sub32 total 1000000000 else total
  let carry := if total ≥ 1000000000 then 1 else 0
  if d.secs > sub64 (2 ^ 64 - 1) e.secs then none
  else if u64 (d.secs + e.secs) > sub64 (2 ^ 64 - 1) carry then none
  else some ⟨u64 (u64 (d.secs + e.secs) + carry), nanos⟩

def checkedSub : Option Duration :=
  if d.secs < e.secs ∨ d.secs = e.secs ∧ d.nanos < e.nanos then none
  else if d.nanos ≥ e.nanos then some ⟨sub64 d.secs e.secs, sub32 d.nanos e.nanos⟩
  else some ⟨sub64 (sub64 d.secs e.secs) 1, sub32 (u32 (d.nanos + 1000000000)) e.nanos⟩

def checkedMul : Option Duration :=
  let total := u64 (d.nanos * rhs)
  if rhs ≠ 0 ∧ d.secs > (2 ^ 64 - 1) / rhs then none
  else if u64 (d.secs * rhs) > sub64 (2 ^ 64 - 1) (total / 1000000000) then none
  else some ⟨u64 (u64 (d.secs * rhs) + total / 1000000000), u32 (total % 1000000000)⟩

def checkedDiv : Option Duration :=
  if rhs = 0 then none
  else
    let extra := u64 (u64 (d.secs % rhs * 1000000000) + d.nanos % rhs) / rhs
    some ⟨d.secs / rhs, u32 (d.nanos / rhs + u32 extra)⟩

def saturatingAdd : Duration := (checkedAdd d e).getD maxValue

def saturatingSub : Duration := (checkedSub d e).getD zero

def saturatingMul : Duration := (checkedMul d rhs).getD maxValue

def absDiff : Duration := (checkedSub d e).getD (saturatingSub e d)

end

def Duration.Valid (d : Duration) : Prop := d.secs < 2 ^ 64 ∧ d.nanos < 1000000000

def Duration.value (d : Duration) : ℕ := d.secs * 1000000000 + d.nanos

/-- The duration of so many nanoseconds, if there is one. -/
def represent (n : ℕ) : Option Duration :=
  if n < 2 ^ 64 * 1000000000 then some ⟨n / 1000000000, n % 1000000000⟩ else none

variable {d e : Duration} {rhs n : ℕ}

theorem represent_spec (h : represent n = some d) : d.Valid ∧ d.value = n := by
  unfold represent at h
  split_ifs at h with hn
  cases h
  change (n / 1000000000 < 2 ^ 64 ∧ n % 1000000000 < 1000000000) ∧ n / 1000000000 * 1000000000 + n % 1000000000 = n
  omega

theorem represent_some {secs nanos : ℕ} (hsecs : secs < 2 ^ 64) (hnanos : nanos < 1000000000)
    (hn : n = secs * 1000000000 + nanos) : some ⟨secs, nanos⟩ = represent n := by
  rw [represent, if_pos (by omega), Option.some.injEq, Duration.mk.injEq]
  omega

theorem represent_none (hn : 2 ^ 64 * 1000000000 ≤ n) : none = represent n := by rw [represent, if_neg (by omega)]

variable (hd : d.Valid)
include hd

theorem checkedAdd_eq (he : e.Valid) : checkedAdd d e = represent (d.value + e.value) := by
  unfold Duration.Valid at hd he
  unfold checkedAdd Duration.value
  dsimp only
  split_ifs
  all_goals simp only [u32, u64, sub32, sub64] at *
  all_goals first
    | exact represent_none (by omega)
    | exact represent_some (by omega) (by omega) (by omega)

theorem checkedSub_eq (he : e.Valid) :
    checkedSub d e = if e.value ≤ d.value then represent (d.value - e.value) else none := by
  unfold Duration.Valid at hd he
  have hlt : d.secs < e.secs ∨ d.secs = e.secs ∧ d.nanos < e.nanos ↔ ¬ e.value ≤ d.value := by
    unfold Duration.value
    omega
  simp only [checkedSub, hlt, ite_not]
  split_ifs
  all_goals simp only [u32, u64, sub32, sub64, Duration.value] at *
  · exact represent_some (by omega) (by omega) (by omega)
  · exact represent_some (by omega) (by omega) (by omega)

theorem checkedMul_eq (hrhs : rhs < 2 ^ 32) : checkedMul d rhs = represent (d.value * rhs) := by
  obtain ⟨hsecs, hnanos⟩ := hd
  have htotal : d.nanos * rhs < 1000000000 * 2 ^ 32 := Nat.mul_lt_mul'' hnanos hrhs
  have hguard : rhs ≠ 0 ∧ d.secs > (2 ^ 64 - 1) / rhs ↔ 2 ^ 64 ≤ d.secs * rhs := by
    rcases Nat.eq_zero_or_pos rhs with rfl | hpos
    · simp
    · rw [gt_iff_lt, Nat.div_lt_iff_lt_mul hpos]
      omega
  simp only [checkedMul, Duration.value, Nat.add_mul, Nat.mul_right_comm _ 1000000000, hguard]
  generalize d.secs * rhs = secs
  generalize d.nanos * rhs = nanos at htotal
  split_ifs with hover hcarry
  · exact represent_none (by omega)
  · simp only [u64, sub64] at hcarry
    exact represent_none (by omega)
  · simp only [u64, sub64] at hcarry
    simp only [u32, u64]
    exact represent_some (by omega) (by omega) (by omega)

theorem checkedDiv_eq (hrhs : rhs < 2 ^ 32) :
    checkedDiv d rhs = if rhs = 0 then none else represent (d.value / rhs) := by
  obtain ⟨hsecs, hnanos⟩ := hd
  unfold checkedDiv
  split_ifs with hzero
  · rfl
  have hpos : 0 < rhs := Nat.pos_of_ne_zero hzero
  have hleft := Nat.mod_lt d.secs hpos
  have hrest := Nat.mod_lt d.nanos hpos
  -- the quotient of what the seconds leave, below a second with the nanoseconds
  have hvalue : d.value / rhs = d.secs / rhs * 1000000000 + (d.secs % rhs * 1000000000 + d.nanos) / rhs := by
    have hsplit : d.value = d.secs % rhs * 1000000000 + d.nanos + rhs * (d.secs / rhs * 1000000000) := by
      have := Nat.mod_add_div d.secs rhs
      rw [Duration.value, ← Nat.mul_assoc]
      omega
    rw [hsplit, Nat.add_mul_div_left _ _ hpos, Nat.add_comm]
  have hextra : (d.secs % rhs * 1000000000 + d.nanos) / rhs =
      d.nanos / rhs + (d.secs % rhs * 1000000000 + d.nanos % rhs) / rhs := by
    have hsplit : d.secs % rhs * 1000000000 + d.nanos =
        d.secs % rhs * 1000000000 + d.nanos % rhs + rhs * (d.nanos / rhs) := by
      have := Nat.mod_add_div d.nanos rhs
      omega
    rw [hsplit, Nat.add_mul_div_left _ _ hpos, Nat.add_comm]
  have hsecond : (d.secs % rhs * 1000000000 + d.nanos) / rhs < 1000000000 := by
    rw [Nat.div_lt_iff_lt_mul hpos]
    omega
  have hquotient : d.secs / rhs ≤ d.secs := Nat.div_le_self _ _
  simp only [u64, u32]
  rw [Nat.mod_eq_of_lt (a := d.secs % rhs * 1000000000) (by omega), Nat.mod_eq_of_lt (b := 2 ^ 64) (by omega), hvalue, hextra]
  rw [hextra] at hsecond
  generalize (d.secs % rhs * 1000000000 + d.nanos % rhs) / rhs = extra at hsecond
  generalize d.nanos / rhs = nanos at hsecond
  exact represent_some (by omega) (by omega) (by omega)

def fits64 (n : ℕ) : Option ℕ := if n < 2 ^ 64 then some n else none

omit hd in
theorem count_iff (guard : Prop) [Decidable guard] :
    (if guard then some (u64 n) else none) = fits64 n ↔ (guard ↔ n < 2 ^ 64) := by
  unfold fits64 u64
  by_cases hguard : guard <;> simp [hguard]

theorem asMillis_iff :
    asMillis d = fits64 (d.value / 1000000) ↔ ¬(d.secs = 18446744073709551 ∧ 616000000 ≤ d.nanos) := by
  obtain ⟨-, hnanos⟩ := hd
  have hcount : u64 (u64 (d.secs * 1000) + d.nanos / 1000000) = u64 (d.value / 1000000) := by
    unfold u64 Duration.value
    omega
  rw [asMillis, hcount, count_iff, Duration.value]
  omega

theorem asMicros_iff : asMicros d = fits64 (d.value / 1000) ↔ ¬(d.secs = 18446744073709 ∧ 551616000 ≤ d.nanos) := by
  obtain ⟨-, hnanos⟩ := hd
  have hcount : u64 (u64 (d.secs * 1000000) + d.nanos / 1000) = u64 (d.value / 1000) := by
    unfold u64 Duration.value
    omega
  rw [asMicros, hcount, count_iff, Duration.value]
  omega

theorem asNanos_iff : asNanos d = fits64 d.value ↔ ¬(2 ^ 64 ≤ d.value ∧ d.secs ≤ 18446744073708) := by
  obtain ⟨-, hnanos⟩ := hd
  have hcount : u64 (u64 (d.secs * 1000000000) + d.nanos) = u64 d.value := by
    unfold u64 Duration.value
    omega
  rw [asNanos, hcount, count_iff, Duration.value]
  omega

theorem asNanosI64_iff :
    asNanosI64 d = min (d.value : ℤ) (2 ^ 63 - 1) ↔ ¬(d.secs = 9223372036 ∧ d.nanos < 854775807) := by
  obtain ⟨-, hnanos⟩ := hd
  unfold asNanosI64 Duration.value
  split_ifs with hsecs
  · omega
  have hsmall : (d.secs : ℤ).bmod (2 ^ 64) = d.secs := bmod_eq_of_le (by omega) (by omega)
  have hproduct : ((d.secs : ℤ) * 1000000000).bmod (2 ^ 64) = d.secs * 1000000000 := bmod_eq_of_le (by omega) (by omega)
  rw [hsmall, hproduct, bmod_eq_of_le (by omega) (by omega)]
  omega

/-- What the operations give for the duration and every other operand. -/
structure Duration.Exact (d : Duration) : Prop where
  add : ∀ e, e.Valid → checkedAdd d e = represent (d.value + e.value)
  sub : ∀ e, e.Valid → checkedSub d e = if e.value ≤ d.value then represent (d.value - e.value) else none
  mul : ∀ rhs < 2 ^ 32, checkedMul d rhs = represent (d.value * rhs)
  div : ∀ rhs < 2 ^ 32, checkedDiv d rhs = if rhs = 0 then none else represent (d.value / rhs)
  saturatingAdd : ∀ e, e.Valid → represent (min (d.value + e.value) maxValue.value) = some (saturatingAdd d e)
  saturatingSub : ∀ e, e.Valid → represent (d.value - e.value) = some (saturatingSub d e)
  saturatingMul : ∀ rhs < 2 ^ 32, represent (min (d.value * rhs) maxValue.value) = some (saturatingMul d rhs)
  absDiff : ∀ e, e.Valid → represent (max d.value e.value - min d.value e.value) = some (absDiff d e)
  millis : asMillis d = fits64 (d.value / 1000000)
  micros : asMicros d = fits64 (d.value / 1000)
  nanos : asNanos d = fits64 d.value
  nanosI64 : asNanosI64 d = min (d.value : ℤ) (2 ^ 63 - 1)

/-- The four places where a guard and the width it guards differ. The third is the guard of `as_nanos`, a thousand times
too high. -/
def Duration.OffEdges (d : Duration) : Prop :=
  ¬(d.secs = 18446744073709551 ∧ 616000000 ≤ d.nanos) ∧ ¬(d.secs = 18446744073709 ∧ 551616000 ≤ d.nanos) ∧
    ¬(2 ^ 64 ≤ d.value ∧ d.secs ≤ 18446744073708) ∧ ¬(d.secs = 9223372036 ∧ d.nanos < 854775807)

omit hd in
theorem represent_isSome (hn : n < 2 ^ 64 * 1000000000) : ∃ d, represent n = some d := ⟨_, if_pos hn⟩

theorem Duration.Valid.value_lt : d.value < 2 ^ 64 * 1000000000 := by
  unfold Duration.Valid at hd
  unfold Duration.value
  omega

omit hd

/-- A value past the longest duration is brought back to it. -/
theorem represent_min (n : ℕ) : represent (min n maxValue.value) = some ((represent n).getD maxValue) := by
  have hmax : maxValue.value + 1 = 2 ^ 64 * 1000000000 := by decide
  by_cases hn : n < 2 ^ 64 * 1000000000
  · obtain ⟨d, hd⟩ := represent_isSome hn
    rw [Nat.min_eq_left (by omega), hd, getD_some]
  · rw [Nat.min_eq_right (by omega), ← represent_none (n := n) (by omega)]
    exact (represent_some (by decide) (by decide) rfl).symm

theorem saturatingSub_eq (hd : d.Valid) (he : e.Valid) : represent (d.value - e.value) = some (saturatingSub d e) := by
  have hlt := hd.value_lt
  rw [saturatingSub, checkedSub_eq hd he]
  split_ifs with hle
  · obtain ⟨r, hr⟩ := represent_isSome (n := d.value - e.value) (by omega)
    rw [hr, getD_some]
  · rw [Nat.sub_eq_zero_of_le (by omega)]
    rfl

theorem absDiff_eq (hd : d.Valid) (he : e.Valid) :
    represent (max d.value e.value - min d.value e.value) = some (absDiff d e) := by
  have hlt := hd.value_lt
  rw [absDiff, checkedSub_eq hd he]
  split_ifs with hle
  · obtain ⟨r, hr⟩ := represent_isSome (n := d.value - e.value) (by omega)
    rw [Nat.max_eq_left hle, Nat.min_eq_right hle, hr, getD_some]
  · rw [Nat.max_eq_right (by omega), Nat.min_eq_left (by omega), saturatingSub_eq he hd, getD_none]

theorem duration_exact_iff (hd : d.Valid) :
    (∀ n r, represent n = some r → r.Valid ∧ r.value = n) ∧ (d.Exact ↔ d.OffEdges) := by
  refine ⟨fun n r h => represent_spec h, ?_, ?_⟩
  · intro h
    exact ⟨(asMillis_iff hd).mp h.millis, (asMicros_iff hd).mp h.micros, (asNanos_iff hd).mp h.nanos,
      (asNanosI64_iff hd).mp h.nanosI64⟩
  · rintro ⟨hmillis, hmicros, hnanos, hi64⟩
    constructor
    · exact fun e he => checkedAdd_eq hd he
    · exact fun e he => checkedSub_eq hd he
    · exact fun rhs hrhs => checkedMul_eq hd hrhs
    · exact fun rhs hrhs => checkedDiv_eq hd hrhs
    · exact fun e he => by rw [represent_min, saturatingAdd, checkedAdd_eq hd he]
    · exact fun e he => saturatingSub_eq hd he
    · exact fun rhs hrhs => by rw [represent_min, saturatingMul, checkedMul_eq hd hrhs]
    · exact fun e he => absDiff_eq hd he
    · exact (asMillis_iff hd).mpr hmillis
    · exact (asMicros_iff hd).mpr hmicros
    · exact (asNanos_iff hd).mpr hnanos
    · exact (asNanosI64_iff hd).mpr hi64

theorem duration_exact_second : (⟨1, 0⟩ : Duration).Valid ∧ (⟨1, 0⟩ : Duration).Exact := by
  have hd : (⟨1, 0⟩ : Duration).Valid := by constructor <;> decide
  exact ⟨hd, (duration_exact_iff hd).2.mpr (by unfold Duration.OffEdges; decide)⟩

/-- The first three wrap, and the last is cut off, though its count fits. -/
theorem edge_counts_wrong : asMillis ⟨18446744073709551, 616000000⟩ = some 0 ∧
    asMicros ⟨18446744073709, 551616000⟩ = some 0 ∧ asNanos ⟨18446744074, 0⟩ = some 290448384 ∧
    asNanosI64 ⟨9223372036, 0⟩ = 9223372036854775807 := by
  decide

end Vx.Clock
