import Mathlib

namespace Vx.Lib.Buffers

open Finset Multiset

abbrev Buffer := ℕ × ℕ

structure Fits (limit : ℕ) (b : Buffer) : Prop where
  pos : 0 < b.2
  ne_null : 0 < b.1
  le : b.1 + b.2 ≤ limit

def bytes (b : Buffer) : Finset ℕ := Finset.Ico b.1 (b.1 + b.2)

structure Spread (limit : ℕ) (buffers : Multiset Buffer) : Prop where
  fits : ∀ b ∈ buffers, Fits limit b
  nodup : buffers.Nodup
  disjoint : ∀ a ∈ buffers, ∀ b ∈ buffers, a ≠ b → Disjoint (bytes a) (bytes b)

def total (buffers : Multiset Buffer) : ℕ := (buffers.map Prod.snd).sum

@[simp] theorem total_cons (b : Buffer) (buffers : Multiset Buffer) : total (b ::ₘ buffers) = b.2 + total buffers := by
  rw [total, Multiset.map_cons, Multiset.sum_cons, total]

variable {limit : ℕ} {buffers : Multiset Buffer}

theorem Spread.zero : Spread limit 0 :=
  ⟨fun _ h => absurd h (notMem_zero _), nodup_zero, fun _ h => absurd h (notMem_zero _)⟩

variable {b : Buffer}

theorem Fits.start_mem (h : Fits limit b) : b.1 ∈ bytes b := by
  have hpos := h.pos
  rw [bytes, Finset.mem_Ico]
  omega

variable (h : Spread limit buffers)
include h

theorem Spread.cons (hb : Fits limit b)
    (hfresh : ∀ a ∈ buffers, Disjoint (bytes a) (bytes b)) : Spread limit (b ::ₘ buffers) := by
  have hnot : b ∉ buffers := by
    intro hmem
    exact Finset.disjoint_left.mp (hfresh b hmem) hb.start_mem hb.start_mem
  refine ⟨fun a ha => ?_, Multiset.nodup_cons.mpr ⟨hnot, h.nodup⟩, fun a ha c hc hne => ?_⟩
  · rcases Multiset.mem_cons.mp ha with rfl | ha
    · exact hb
    · exact h.fits a ha
  · rcases Multiset.mem_cons.mp ha with rfl | hina <;> rcases Multiset.mem_cons.mp hc with rfl | hinc
    · exact absurd rfl hne
    · exact (hfresh c hinc).symm
    · exact hfresh a hina
    · exact h.disjoint a hina c hinc hne

theorem Spread.mono {fewer : Multiset Buffer} (hle : fewer ≤ buffers) : Spread limit fewer :=
  ⟨fun b hb => h.fits b (mem_of_le hle hb), nodup_of_le hle h.nodup,
    fun a ha b hb => h.disjoint a (mem_of_le hle ha) b (mem_of_le hle hb)⟩

theorem Spread.eq_of_start {a : Buffer} (ha : a ∈ buffers) (hb : b ∈ buffers) (hstart : a.1 = b.1) : a = b := by
  by_contra hne
  have hmem : a.1 ∈ bytes b := hstart ▸ (h.fits b hb).start_mem
  exact Finset.disjoint_left.mp (h.disjoint a ha b hb hne) (h.fits a ha).start_mem hmem

theorem Spread.card_le : buffers.card ≤ total buffers := by
  have hpos : ∀ n ∈ buffers.map Prod.snd, 1 ≤ n := by
    intro n hn
    obtain ⟨b, hb, rfl⟩ := Multiset.mem_map.mp hn
    exact (h.fits b hb).pos
  simpa [total] using Multiset.card_nsmul_le_sum hpos

theorem Spread.total_lt (hlimit : 0 < limit) : total buffers < limit := by
  have hunion : (buffers.toFinset.biUnion bytes).card = ∑ b ∈ buffers.toFinset, b.2 := by
    rw [card_biUnion]
    · exact sum_congr rfl fun b _ => by rw [bytes, Nat.card_Ico, Nat.add_sub_cancel_left]
    · intro a ha b hb hne
      exact h.disjoint a (Multiset.mem_toFinset.mp ha) b (Multiset.mem_toFinset.mp hb) hne
  have hsub : buffers.toFinset.biUnion bytes ⊆ Finset.Ico 1 limit := by
    intro x hx
    obtain ⟨b, hb, hx⟩ := Finset.mem_biUnion.mp hx
    have hfits := h.fits b (Multiset.mem_toFinset.mp hb)
    have hnull := hfits.ne_null
    have hle := hfits.le
    rw [bytes, Finset.mem_Ico] at hx
    rw [Finset.mem_Ico]
    omega
  have hcard := Finset.card_le_card hsub
  rw [hunion, Nat.card_Ico] at hcard
  have hsum : total buffers = ∑ b ∈ buffers.toFinset, b.2 := by
    rw [Finset.sum, toFinset_val, h.nodup.dedup, total]
  omega

end Vx.Lib.Buffers
