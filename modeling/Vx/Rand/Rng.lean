import Mathlib

namespace Vx.Rand

abbrev U64 := BitVec 64

structure SplitMix64 where
  state : U64

def SplitMix64.nextU64 (self : SplitMix64) : U64 × SplitMix64 :=
  let state := self.state + 11400714819323198485
  let z := (state ^^^ (state >>> 30)) * 13787848793156543929
  let z := (z ^^^ (z >>> 27)) * 10723151780598845931
  (z ^^^ (z >>> 31), ⟨state⟩)

structure Rng where
  s0 : U64
  s1 : U64
  s2 : U64
  s3 : U64

def Rng.seeded (seed : U64) : Rng :=
  let (s0, mix) := (SplitMix64.mk seed).nextU64
  let (s1, mix) := mix.nextU64
  let (s2, mix) := mix.nextU64
  let (s3, _) := mix.nextU64
  ⟨s0, s1, s2, s3⟩

/-- The draw is taken from the state before it advances. -/
def Rng.nextU64 (self : Rng) : U64 × Rng :=
  let draw := (self.s1 * 5).rotateLeft 7 * 9
  let t := self.s1 <<< 17
  let s2 := self.s2 ^^^ self.s0
  let s3 := self.s3 ^^^ self.s1
  (draw, ⟨self.s0 ^^^ s3, self.s1 ^^^ s2, s2 ^^^ t, s3.rotateLeft 45⟩)

def Rng.after (rng : Rng) (n : ℕ) : Rng := (fun rng => rng.nextU64.2)^[n] rng

def Rng.Dead (rng : Rng) : Prop := rng.s0 = 0 ∧ rng.s1 = 0 ∧ rng.s2 = 0 ∧ rng.s3 = 0

theorem eq_zero_of_mul_eq_zero {x c d : U64} (hc : c * d = 1) (h : x * c = 0) : x = 0 := by
  calc x = x * (c * d) := by rw [hc, mul_one]
    _ = 0 := by rw [← mul_assoc, h, zero_mul]

theorem eq_zero_of_xor_shift {x : U64} {n : ℕ} (hn : n ≠ 0) (h : x ^^^ (x >>> n) = 0) : x = 0 := by
  have hshift := congrArg BitVec.toNat (BitVec.xor_eq_zero_iff.mp h)
  rw [BitVec.toNat_ushiftRight, Nat.shiftRight_eq_div_pow] at hshift
  by_contra hne
  have hpos : 0 < x.toNat := Nat.pos_of_ne_zero fun hzero => hne (BitVec.toNat_inj.mp hzero)
  exact absurd hshift (Nat.div_lt_self hpos (Nat.one_lt_two_pow hn)).ne'

/-- Each stage of the scrambling keeps zero apart: the factors are odd, so they have inverses. -/
theorem SplitMix64.state_of_draw {self : SplitMix64} (h : self.nextU64.1 = 0) :
    self.state + 11400714819323198485 = 0 := by
  simp only [nextU64] at h
  have hlast := eq_zero_of_mul_eq_zero (d := 3573116690164977347) (by decide) (eq_zero_of_xor_shift (by decide) h)
  have hfirst := eq_zero_of_mul_eq_zero (d := 10871156337175269513) (by decide) (eq_zero_of_xor_shift (by decide) hlast)
  exact eq_zero_of_xor_shift (by decide) hfirst

theorem Rng.seeded_alive (seed : U64) : ¬ (Rng.seeded seed).Dead := by
  rintro ⟨h0, h1, -, -⟩
  have hfirst := @SplitMix64.state_of_draw ⟨seed⟩ h0
  have hsecond := @SplitMix64.state_of_draw ⟨seed + 11400714819323198485⟩ h1
  simp only at hfirst hsecond
  bv_omega

theorem eq_zero_of_rotateLeft {x : U64} (h : x.rotateLeft 45 = 0) : x = 0 := by
  rw [BitVec.rotateLeft_def] at h
  obtain ⟨hleft, hright⟩ := BitVec.or_eq_zero_iff.mp h
  simp only [Nat.reduceMod, Nat.reduceSub] at hleft hright
  bv_omega

theorem Rng.nextU64_alive {rng : Rng} (h : ¬ rng.Dead) : ¬ rng.nextU64.2.Dead := by
  rintro ⟨h0, h1, h2, h3⟩
  simp only [nextU64] at h0 h1 h2 h3
  have hs3 := eq_zero_of_rotateLeft h3
  have h0 : rng.s0 = 0 := by simpa [hs3] using h0
  simp only [h0, BitVec.ofNat_eq_ofNat, BitVec.xor_zero] at h1 h2
  have hs1 := BitVec.xor_eq_zero_iff.mp h1
  have hs2 := BitVec.xor_eq_zero_iff.mp h2
  have hs31 := BitVec.xor_eq_zero_iff.mp hs3
  have hshift : rng.s1 = rng.s1 <<< 17 := hs1.trans hs2
  have hzero : rng.s1 = 0 := by bv_omega
  have htwo : rng.s2 = 0 := by
    rw [hzero] at hs1
    simpa using hs1.symm
  exact h ⟨h0, hzero, htwo, hs31.trans hzero⟩

theorem generator_never_dies (seed : U64) (n : ℕ) : ¬ ((Rng.seeded seed).after n).Dead := by
  induction n with
  | zero => exact Rng.seeded_alive seed
  | succ n ih =>
    rw [Rng.after, Function.iterate_succ_apply']
    exact Rng.nextU64_alive ih

end Vx.Rand
