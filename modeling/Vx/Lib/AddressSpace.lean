import Mathlib

namespace Vx.Lib.AddressSpace

open Int

structure Block (limit : ℤ) where
  start : ℤ
  stop : ℤ
  start_pos : 0 < start
  stop_lt : stop < limit

structure Space (limit : ℤ) where
  live : Set (Block limit)
  eq_of_shared : ∀ a ∈ live, ∀ b ∈ live, ∀ x, a.start ≤ x → x < a.stop → b.start ≤ x → x < b.stop → a = b

variable {limit : ℤ}

def addressOf (limit base size i : ℤ) : ℤ := (base + i * size) % limit

def Space.Holds (space : Space limit) (size p n : ℤ) : Prop :=
  ∃ b ∈ space.live, b.start ≤ p ∧ p + n * size ≤ b.stop

structure Space.Valid (space : Space limit) (align size p n : ℤ) : Prop where
  nonneg : 0 ≤ n
  ne_null : p ≠ 0
  aligned : align ∣ p
  holds : 0 < n → space.Holds size p n

theorem addressOf_add (base size i d : ℤ) :
    addressOf limit base size (i + d) = (addressOf limit base size i + d * size) % limit := by
  rw [addressOf, addressOf, emod_add_emod, Int.add_mul, Int.add_assoc]

section
variable {space : Space limit} {align base size lo n : ℤ} {d : ℤ}
  (h : space.Holds size (addressOf limit base size lo) n)
include h

theorem Space.Holds.addressOf_add (hsize : 0 ≤ size) (hd : 0 ≤ d) (hdn : d ≤ n) :
    addressOf limit base size (lo + d) = addressOf limit base size lo + d * size := by
  obtain ⟨b, _, hstart, hstop⟩ := h
  have hle : d * size ≤ n * size := Int.mul_le_mul_of_nonneg_right hdn hsize
  have hnonneg : 0 ≤ d * size := Int.mul_nonneg hd hsize
  have hpos := b.start_pos
  have hlt := b.stop_lt
  rw [AddressSpace.addressOf_add, emod_eq_of_lt (by omega) (by omega)]

variable {m : ℤ}

theorem Space.Holds.sub (hsize : 0 ≤ size)
    (hd : 0 ≤ d) (hm : 0 ≤ m) (hdm : d + m ≤ n) : space.Holds size (addressOf limit base size (lo + d)) m := by
  have haddress := h.addressOf_add hsize hd (by omega)
  obtain ⟨b, hb, hstart, hstop⟩ := h
  have hnonneg : 0 ≤ d * size := Int.mul_nonneg hd hsize
  have hle : (d + m) * size ≤ n * size := Int.mul_le_mul_of_nonneg_right hdm hsize
  rw [Int.add_mul] at hle
  rw [haddress]
  exact ⟨b, hb, by omega, by omega⟩

omit h in
theorem Space.Valid.sub (h : space.Valid align size (addressOf limit base size lo) n) (hsize : 0 ≤ size)
    (halign : align ∣ size) (hd : 0 ≤ d) (hm : 0 ≤ m) (hdm : d + m ≤ n) :
    space.Valid align size (addressOf limit base size (lo + d)) m := by
  rcases h.nonneg.eq_or_lt with hzero | hn
  · obtain ⟨rfl, rfl⟩ : d = 0 ∧ m = 0 := by omega
    rw [Int.add_zero]
    exact ⟨hm, h.ne_null, h.aligned, fun hlt => absurd hlt (lt_irrefl 0)⟩
  · have hholds := h.holds hn
    have haddress := hholds.addressOf_add hsize hd (by omega)
    refine ⟨hm, ?_, ?_, fun _ => hholds.sub hsize hd hm hdm⟩
    · obtain ⟨b, _, hstart, _⟩ := hholds
      have hnonneg : 0 ≤ d * size := Int.mul_nonneg hd hsize
      have hpos := b.start_pos
      rw [haddress]
      omega
    · rw [haddress]
      exact Int.dvd_add h.aligned (Int.dvd_mul_of_dvd_right halign)

theorem Space.Holds.join
    (h' : space.Holds size (addressOf limit base size (lo + d)) m) (hsize : 0 ≤ size) (hd : 0 ≤ d) (hdn : d < n)
    (hm : 0 < m) : space.Holds size (addressOf limit base size lo) (d + m) := by
  have haddress := h.addressOf_add hsize hd hdn.le
  rw [haddress] at h'
  obtain ⟨b, hb, hstart, hstop⟩ := h
  obtain ⟨b', hb', hstart', hstop'⟩ := h'
  rcases hsize.eq_or_lt with rfl | hpos
  · exact ⟨b, hb, hstart, by simpa using hstop⟩
  have hnonneg : 0 ≤ d * size := Int.mul_nonneg hd hsize
  have hbefore : d * size < n * size := Int.mul_lt_mul_of_pos_right hdn hpos
  have hafter : 0 < m * size := Int.mul_pos hm hpos
  have heq := space.eq_of_shared b hb b' hb' (addressOf limit base size lo + d * size) (by omega) (by omega)
    hstart' (by omega)
  subst heq
  refine ⟨b, hb, hstart, ?_⟩
  rw [Int.add_mul]
  omega

omit h

theorem Space.Valid.join (h : space.Valid align size (addressOf limit base size lo) n)
    (h' : space.Valid align size (addressOf limit base size (lo + d)) m) (hsize : 0 ≤ size) (hd : 0 ≤ d)
    (hdn : d < n) (hm : 0 < m) : space.Valid align size (addressOf limit base size lo) (d + m) :=
  ⟨by omega, h.ne_null, h.aligned, fun _ => (h.holds (by omega)).join (h'.holds hm) hsize hd hdn hm⟩

end

def bytes (limit p len : ℤ) : Set ℤ := { x | ∃ k, 0 ≤ k ∧ k < len ∧ x = (p + k) % limit }

theorem bytes_sub {base size lo n d m : ℤ} (hsize : 0 ≤ size) (hd : 0 ≤ d) (hdm : d + m ≤ n) :
    bytes limit (addressOf limit base size (lo + d)) (m * size) ⊆ bytes limit (addressOf limit base size lo) (n * size) := by
  rintro x ⟨k, hk, hkm, rfl⟩
  have hnonneg : 0 ≤ d * size := Int.mul_nonneg hd hsize
  have hle : (d + m) * size ≤ n * size := Int.mul_le_mul_of_nonneg_right hdm hsize
  rw [Int.add_mul] at hle
  refine ⟨d * size + k, by omega, by omega, ?_⟩
  rw [AddressSpace.addressOf_add, emod_add_emod, Int.add_assoc]

theorem Space.Holds.disjoint_bytes {space : Space limit} {base size lo n d d' m : ℤ}
    (h : space.Holds size (addressOf limit base size lo) n) (hsize : 0 ≤ size) (hd : 0 ≤ d) (hm : 0 ≤ m)
    (hdm : d + m ≤ d') (hdn : d' + m ≤ n) : Disjoint (bytes limit (addressOf limit base size (lo + d)) (m * size))
      (bytes limit (addressOf limit base size (lo + d')) (m * size)) := by
  rw [Set.disjoint_left]
  rintro x ⟨k, hk, hkm, rfl⟩ ⟨k', hk', hkm', heq⟩
  rw [h.addressOf_add hsize hd (by omega), h.addressOf_add hsize (by omega) (by omega)] at heq
  obtain ⟨b, _, hstart, hstop⟩ := h
  have hpos := b.start_pos
  have hlt := b.stop_lt
  have hnonneg : 0 ≤ d * size := Int.mul_nonneg hd hsize
  have hmid : (d + m) * size ≤ d' * size := Int.mul_le_mul_of_nonneg_right hdm hsize
  have hend : (d' + m) * size ≤ n * size := Int.mul_le_mul_of_nonneg_right hdn hsize
  rw [Int.add_mul] at hmid hend
  rw [emod_eq_of_lt (by omega) (by omega), emod_eq_of_lt (by omega) (by omega)] at heq
  omega

end Vx.Lib.AddressSpace
