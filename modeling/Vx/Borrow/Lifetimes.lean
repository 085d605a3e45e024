import Mathlib

namespace Vx.Borrow

open List BitVec

/-- The flags that `try_set_fast_param` is given. -/
inductive Variance
  | invariant | covariant | contravariant

def Variance.flags : Variance → BitVec 16
  | .invariant => 0
  | .covariant => 1
  | .contravariant => 2

def fastParam (region : BitVec 12) (variance : Variance) : BitVec 16 :=
  (variance.flags &&& 0x0007) <<< 12 ||| region.setWidth 16 &&& 0x0fff

structure UnboundedFunctionMetadata where
  lifetimeRegions : List ℕ
  traitVtables : List ℕ
deriving DecidableEq

inductive LifetimeSignature
  | fastPath (bits : BitVec 64)
  | slowPath (metadata : UnboundedFunctionMetadata)

def slotRegionMasks : List (BitVec 16) := [0x01ff, 0x0fff, 0x0fff, 0x0fff]

def slotCompatible (a b regionMask : BitVec 16) : Bool :=
  let unset := a &&& regionMask == regionMask || b &&& regionMask == regionMask
  let ordered := a >>> 12 == 0 && a &&& regionMask == b &&& regionMask ||
    a >>> 12 == 1 && (a &&& regionMask).ule (b &&& regionMask) ||
    a >>> 12 == 2 && (b &&& regionMask).ule (a &&& regionMask)
  a >>> 12 == b >>> 12 && (unset || ordered)

def slot (bits : BitVec 64) (i : ℕ) : BitVec 16 := (bits >>> (16 * i)).setWidth 16

def fastPathSlotsCompatible (a b : BitVec 64) : Bool :=
  slotRegionMasks.zipIdx.foldl (fun all x => all && slotCompatible (slot a x.2) (slot b x.2) x.1) true

def evaluateSlowPathVariance (a b : UnboundedFunctionMetadata) : Bool :=
  a.lifetimeRegions == b.lifetimeRegions && a.traitVtables == b.traitVtables

def verifySubtypingBounds : LifetimeSignature → LifetimeSignature → Bool
  | .fastPath a, .fastPath b => if a = b then true else fastPathSlotsCompatible a b
  | .slowPath a, .slowPath b => evaluateSlowPathVariance a b
  | _, _ => false

def Encoded (bits : BitVec 64) : Prop := ∀ i : Fin 4, ∃ region variance, slot bits i = fastParam region variance

def EverySlot (a b : BitVec 64) : Prop :=
  ∀ i regionMask, slotRegionMasks[i]? = some regionMask → slotCompatible (slot a i) (slot b i) regionMask = true

theorem foldl_and {α : Type} (f : α → Bool) (l : List α) (all : Bool) :
    l.foldl (fun all x => all && f x) all = (all && l.all f) := by
  induction l generalizing all with
  | nil => simp
  | cons x l ih => rw [foldl_cons, ih, all_cons, Bool.and_assoc]

theorem fastPathSlotsCompatible_iff (a b : BitVec 64) : fastPathSlotsCompatible a b = true ↔ EverySlot a b := by
  rw [fastPathSlotsCompatible, foldl_and, Bool.true_and, all_eq_true]
  constructor
  · intro h i regionMask hi
    exact h (regionMask, i) (mk_mem_zipIdx_iff_getElem?.mpr hi)
  · rintro h ⟨regionMask, i⟩ hx
    exact h i regionMask (mk_mem_zipIdx_iff_getElem?.mp hx)

theorem fastParam_variance (region : BitVec 12) (variance : Variance) :
    fastParam region variance >>> 12 = variance.flags := by
  have hregion : (region.setWidth 16 &&& 0x0fff) >>> 12 = 0 := by
    apply eq_of_toNat_eq
    rw [toNat_ushiftRight, Nat.shiftRight_eq_div_pow, toNat_and]
    exact Nat.div_eq_of_lt (Nat.and_lt_two_pow _ (by decide))
  rw [fastParam, ushiftRight_or_distrib, hregion]
  cases variance <;> decide

theorem slotCompatible_self (region : BitVec 12) (variance : Variance) (regionMask : BitVec 16) :
    slotCompatible (fastParam region variance) (fastParam region variance) regionMask = true := by
  unfold slotCompatible
  rw [fastParam_variance]
  cases variance <;> simp [Variance.flags, BitVec.ule]

theorem lifetimes_checked_by_slot {a b : BitVec 64} (hb : Encoded b) :
    (fastPathSlotsCompatible a b = true ↔ EverySlot a b) ∧
      (verifySubtypingBounds (.fastPath a) (.fastPath b) = true ↔ EverySlot a b) := by
  refine ⟨fastPathSlotsCompatible_iff a b, ?_⟩
  rw [verifySubtypingBounds]
  split_ifs with hab
  · subst hab
    refine iff_of_true rfl fun i regionMask hi => ?_
    obtain ⟨region, variance, hslot⟩ := hb ⟨i, (List.getElem?_eq_some_iff.mp hi).1⟩
    rw [hslot]
    exact slotCompatible_self region variance regionMask
  · exact fastPathSlotsCompatible_iff a b

theorem lifetimes_checked_by_slot_covariant : verifySubtypingBounds (.fastPath 0x1001) (.fastPath 0x1005) = true ∧
    EverySlot 0x1001 0x1005 := by
  have hb : Encoded 0x1005
    | 0 => ⟨5, .covariant, by decide⟩
    | 1 | 2 | 3 => ⟨0, .invariant, by decide⟩
  exact ⟨by decide, (lifetimes_checked_by_slot hb).2.mp (by decide)⟩

end Vx.Borrow
