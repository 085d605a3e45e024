import Vx.Pipeline.Strategies

/-!
The four setters that share word 2 of an identifier, `gid.rs`, over any sequence of calls.
-/

namespace Vx.Pipeline

open BitVec
open Lib.Bits

def fastParamRegionMax : BitVec 16 := 0x0fff
def fastParamVarianceMask : BitVec 16 := 0x0007
def fastReturnProvShift : ℕ := 9
def fastReturnProvMask : BitVec 16 := 0x0e00

def TypeId.extractFastParam (id : TypeId) (paramIndex : ℕ) : BitVec 16 :=
  (id.genericHash >>> (paramIndex * 16) &&& 0xffff#64).setWidth 16

def fastPayload (regionId : BitVec 16) (varianceFlags : BitVec 8) : BitVec 16 :=
  (varianceFlags.setWidth 16 &&& fastParamVarianceMask) <<< 12 ||| regionId &&& fastParamRegionMax

def TypeId.trySetFastParam (id : TypeId) (paramIndex : ℕ) (regionId : BitVec 16) (varianceFlags : BitVec 8) :
    Except String TypeId :=
  if fastParamRegionMax < regionId then .error "Lifetime region overflowed 12 bits. Must use Slow Path."
  else
    let shift := paramIndex * 16
    let mask := ~~~(0xffff#64 <<< shift)
    .ok (id.withWord2 (id.genericHash &&& mask ||| (fastPayload regionId varianceFlags).setWidth 64 <<< shift))

def packed (slot : BitVec 16) (prov : BitVec 8) : BitVec 16 :=
  slot &&& ~~~fastReturnProvMask ||| prov.setWidth 16 <<< fastReturnProvShift &&& fastReturnProvMask

def TypeId.setReturnProvenance (id : TypeId) (prov : BitVec 8) : TypeId :=
  id.withWord2 (id.genericHash &&& ~~~0xffff#64 ||| (packed (id.extractFastParam 0) prov).setWidth 64)

inductive FastCall
  | param (paramIndex : Fin 4) (regionId : BitVec 16) (varianceFlags : BitVec 8)
  | provenance (prov : BitVec 8)

inductive SetCall
  | arenaIndex (index : Word) (arena : Word2Arena) (scope : Word2Scope) (fits : index &&& escapeHatchMask = 0)
  | genericDigest (digest : Word) (fits : digest &&& escapeHatchMask = 0)
  | fast (call : FastCall)

-- A refused region leaves the identifier as it was.
def FastCall.run (id : TypeId) : FastCall → TypeId
  | .param paramIndex regionId varianceFlags =>
    (id.trySetFastParam paramIndex regionId varianceFlags).toOption.getD id
  | .provenance prov => id.setReturnProvenance prov

def SetCall.run (id : TypeId) : SetCall → TypeId
  | .arenaIndex index arena scope _ => id.setArenaIndex index arena scope
  | .genericDigest digest _ => id.setGenericDigest digest
  | .fast call => call.run id

def TypeId.after (id : TypeId) (calls : List SetCall) : TypeId := calls.foldl SetCall.run id

def FastCall.Owns : FastCall → ℕ → Prop
  | .param paramIndex _ _, j => paramIndex * 16 ≤ j ∧ j < paramIndex * 16 + 16
  | .provenance _, j => 9 ≤ j ∧ j < 12

section
variable (id : TypeId)

theorem getLsbD_slotMask (j : ℕ) : (0xffff#64).getLsbD j = decide (j < 16) := by
  have hmask : 0xffff#64 = (allOnes 16).setWidth 64 := by decide
  rw [hmask, getLsbD_setWidth, getLsbD_allOnes]
  by_cases hj : j < 16 <;> simp [hj]
  omega

theorem getLsbD_fastReturnProvMask (j : ℕ) : fastReturnProvMask.getLsbD j = decide (9 ≤ j ∧ j < 12) := by
  by_cases hj : j < 16
  · interval_cases j <;> rfl
  · rw [getLsbD_of_ge _ _ (by omega)]
    simp
    omega

theorem fastPayload_top (regionId : BitVec 16) (varianceFlags : BitVec 8) :
    (fastPayload regionId varianceFlags).getLsbD 15 = false := by
  simp [fastPayload, fastParamVarianceMask, fastParamRegionMax]

theorem getLsbD_withSlot (word : Word) (payload : BitVec 16) {shift j : ℕ} (hj : j < 64) :
    (word &&& ~~~(0xffff#64 <<< shift) ||| payload.setWidth 64 <<< shift).getLsbD j =
      if shift ≤ j ∧ j < shift + 16 then payload.getLsbD (j - shift) else word.getLsbD j := by
  simp only [getLsbD_or, getLsbD_and, getLsbD_not, getLsbD_shiftLeft, getLsbD_slotMask, getLsbD_setWidth, hj,
    decide_true, Bool.true_and]
  by_cases hlow : j < shift
  · simp [hlow, Nat.not_le.mpr hlow]
  · by_cases hhigh : j < shift + 16
    · simp [hlow, hhigh, show j - shift < 16 by omega, show j - shift < 64 by omega, Nat.le_of_not_lt hlow]
    · simp [hhigh, show ¬ j - shift < 16 by omega, getLsbD_of_ge payload (j - shift) (by omega)]

theorem withWord2_genericHash : id.withWord2 id.genericHash = id := by
  simp

theorem getLsbD_extractFastParam_zero {j : ℕ} (hj : j < 16) :
    (id.extractFastParam 0).getLsbD j = id.genericHash.getLsbD j := by
  rw [TypeId.extractFastParam, Nat.zero_mul, ushiftRight_zero, getLsbD_setWidth, getLsbD_and, getLsbD_slotMask]
  simp [hj]

theorem FastCall.run_eq (call : FastCall) : ∃ word2, call.run id = id.withWord2 word2 ∧
    (∀ j, ¬ call.Owns j → word2.getLsbD j = id.genericHash.getLsbD j) ∧
    (id.genericHash.getLsbD 63 = false → word2.getLsbD 63 = false) := by
  cases call with
  | param paramIndex regionId varianceFlags =>
    by_cases hregion : fastParamRegionMax < regionId
    · refine ⟨id.genericHash, ?_, fun _ _ => rfl, fun h => h⟩
      rw [FastCall.run, TypeId.trySetFastParam, if_pos hregion, withWord2_genericHash]
      rfl
    · refine ⟨_, by rw [FastCall.run, TypeId.trySetFastParam, if_neg hregion]; rfl, fun j hj => ?_, fun h => ?_⟩
      · rcases Nat.lt_or_ge j 64 with hlt | hge
        · exact (getLsbD_withSlot _ _ hlt).trans (if_neg hj)
        · rw [getLsbD_of_ge _ _ hge, getLsbD_of_ge _ _ hge]
      · -- bit 63 is the reserved top bit of the last slot
        rw [getLsbD_withSlot _ _ (by omega)]
        split_ifs with hslot
        · rw [show 63 - paramIndex.val * 16 = 15 by omega, fastPayload_top]
        · exact h
  | provenance prov =>
    have hbits : ∀ j, ¬ (9 ≤ j ∧ j < 12) →
        (id.setReturnProvenance prov).genericHash.getLsbD j = id.genericHash.getLsbD j := by
      intro j hj
      have hword : (id.setReturnProvenance prov).genericHash = id.genericHash &&& ~~~(0xffff#64 <<< 0) |||
          (packed (id.extractFastParam 0) prov).setWidth 64 <<< 0 := by
        simp [TypeId.setReturnProvenance, TypeId.withWord2, TypeId.genericHash]
      rcases Nat.lt_or_ge j 64 with hlt | hge
      · rw [hword, getLsbD_withSlot _ _ hlt]
        split_ifs with hslot
        · rw [packed, Nat.sub_zero, getLsbD_or, getLsbD_and, getLsbD_and, getLsbD_not, getLsbD_fastReturnProvMask,
            decide_eq_false hj, getLsbD_extractFastParam_zero id (by omega)]
          simp
          omega
        · rfl
      · rw [getLsbD_of_ge _ _ hge, getLsbD_of_ge _ _ hge]
    refine ⟨(id.setReturnProvenance prov).genericHash, ?_, hbits, fun h => (hbits 63 (by omega)).trans h⟩
    simp [FastCall.run, TypeId.setReturnProvenance, TypeId.withWord2, TypeId.genericHash]

end

variable {id : TypeId}

theorem exists_fastLifetime_iff : (∃ bits, id.classifyWord2 = .fastLifetime bits) ↔ id.genericHash.getLsbD 63 = false := by
  rw [TypeId.genericHash, ← flag_clear_iff _ (by omega), TypeId.classifyWord2, ← escapeHatchMask]
  split_ifs with h63 h40
  all_goals simp [h63]

theorem sameBase_withWord2 (word2 : Word) : SameBase (id.withWord2 word2) id :=
  ⟨by simp, by simp, fun _ _ _ _ => by simp⟩

theorem sameBase_run (call : SetCall) : SameBase (call.run id) id := by
  cases call with
  | arenaIndex index arena scope _ => exact sameBase_setArenaIndex id index arena scope
  | genericDigest digest _ => exact sameBase_setGenericDigest id digest
  | fast call =>
    obtain ⟨word2, hrun, -⟩ := call.run_eq id
    rw [SetCall.run, hrun]
    exact sameBase_withWord2 word2

theorem sameBase_after (calls : List SetCall) : SameBase (id.after calls) id := by
  induction calls generalizing id with
  | nil => exact ⟨rfl, rfl, fun _ _ _ _ => rfl⟩
  | cons call calls ih => exact ih.trans (sameBase_run call)

theorem clear_of_fits {word : Word} (h : word &&& escapeHatchMask = 0) : word.getLsbD 63 = false :=
  (flag_clear_iff word (by omega)).mp h

theorem word2_keeps_meaning (id : TypeId) (calls : List SetCall) :
    SameBase (id.after calls) id ∧
      (∀ index arena scope fits, ((id.after calls).after [.arenaIndex index arena scope fits]).classifyWord2 =
        .index index arena scope) ∧
      (∀ digest fits, ((id.after calls).after [.genericDigest digest fits]).classifyWord2 = .genericDigest digest) ∧
      ∀ call : FastCall, (∃ word2, (id.after calls).after [.fast call] = (id.after calls).withWord2 word2 ∧
          ∀ j, ¬ call.Owns j → word2.getLsbD j = (id.after calls).genericHash.getLsbD j) ∧
        ((∃ bits, (id.after calls).classifyWord2 = .fastLifetime bits) →
          ∃ bits, ((id.after calls).after [.fast call]).classifyWord2 = .fastLifetime bits) := by
  refine ⟨sameBase_after calls, fun index arena scope fits => ?_, fun digest fits => ?_, fun call => ?_⟩
  · exact classifyWord2_setArenaIndex _ index arena scope (clear_of_fits fits)
  · exact classifyWord2_setGenericDigest _ (clear_of_fits fits)
  · obtain ⟨word2, hrun, hbits, htop⟩ := call.run_eq (id.after calls)
    refine ⟨⟨word2, hrun, hbits⟩, fun hfast => ?_⟩
    have hword : (call.run (id.after calls)).genericHash = word2 := by
      simp [hrun, TypeId.withWord2, TypeId.genericHash]
    exact exists_fastLifetime_iff.mpr (hword ▸ htop (exists_fastLifetime_iff.mp hfast))

/-- The four slots as an array. -/
def FastCall.applied (slots : Fin 4 → BitVec 16) : FastCall → Fin 4 → BitVec 16
  | .param i regionId varianceFlags =>
    if fastParamRegionMax < regionId then slots else Function.update slots i (fastPayload regionId varianceFlags)
  | .provenance prov => Function.update slots 0 (packed (slots 0) prov)

def TypeId.slots (id : TypeId) (i : Fin 4) : BitVec 16 := id.extractFastParam i

theorem slots_withSlot (id : TypeId) (payload : BitVec 16) (k : Fin 4) :
    (id.withWord2 (id.genericHash &&& ~~~(0xffff#64 <<< (k.val * 16)) ||| payload.setWidth 64 <<< (k.val * 16))).slots =
      Function.update id.slots k payload := by
  funext i
  have hbit (id : TypeId) {j : ℕ} (hj : j < 16) : (id.slots i).getLsbD j = id.genericHash.getLsbD (i * 16 + j) := by
    rw [TypeId.slots, TypeId.extractFastParam, getLsbD_setWidth, getLsbD_and, getLsbD_slotMask, getLsbD_ushiftRight]
    simp [hj]
  have hword (word2 : Word) : (id.withWord2 word2).genericHash = word2 := by
    simp
  refine eq_of_getLsbD_eq fun j hj => ?_
  rw [hbit _ hj, hword, getLsbD_withSlot _ _ (by omega), Function.update_apply]
  split_ifs with hslot hik hik
  · rw [hik, Nat.add_sub_cancel_left]
  · omega
  · omega
  · rw [hbit id hj]

theorem slots_run (call : FastCall) : (call.run id).slots = call.applied id.slots := by
  cases call with
  | param k regionId varianceFlags =>
    rw [FastCall.run, TypeId.trySetFastParam, FastCall.applied]
    split_ifs with hregion
    · rfl
    · exact slots_withSlot id _ k
  | provenance prov =>
    have h := slots_withSlot id (packed (id.slots 0) prov) 0
    rwa [Fin.val_zero, Nat.zero_mul, shiftLeft_zero, shiftLeft_zero] at h

/-- No call reaches into another slot. -/
theorem fast_slots_apart (id : TypeId) (calls : List FastCall) :
    (calls.foldl FastCall.run id).slots = calls.foldl FastCall.applied id.slots := by
  induction calls generalizing id with
  | nil => rfl
  | cons call calls ih => rw [List.foldl_cons, ih, slots_run, List.foldl_cons]

end Vx.Pipeline
