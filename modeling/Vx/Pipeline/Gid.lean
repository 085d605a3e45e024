import Vx.Lib.Bits

namespace Vx.Pipeline

open Lib.Bits

abbrev Word := BitVec 64

def escapeHatchMask : Word := 1#64 <<< 63
def indexMask : Word := ~~~escapeHatchMask
def localDeferredBit : Word := 1#64 <<< 43
def isGenericInstFlag : Word := 1#64 <<< 41
def genericDigestFlag : Word := 1#64 <<< 40

structure TypeId where
  words : Vector Word 4
deriving DecidableEq, Repr

@[simp]
abbrev TypeId.moduleId (id : TypeId) : Word := id.words[0]

@[simp]
abbrev TypeId.symbolId (id : TypeId) : Word := id.words[1]

@[simp]
abbrev TypeId.genericHash (id : TypeId) : Word := id.words[2]

@[simp]
abbrev TypeId.flags (id : TypeId) : Word := id.words[3]

@[simp]
abbrev TypeId.withWord2 (id : TypeId) (word2 : Word) : TypeId := ⟨id.words.set 2 word2⟩

@[simp]
abbrev TypeId.withWord3 (id : TypeId) (word3 : Word) : TypeId := ⟨id.words.set 3 word3⟩

inductive Word2Arena where
  | generics
  | slowMeta
deriving DecidableEq, Repr

inductive Word2Scope where
  | localScope
  | globalScope
deriving DecidableEq, Repr

inductive Word2 where
  | fastLifetime (bits : Word)
  | index (index : Word) (arena : Word2Arena) (scope : Word2Scope)
  | genericDigest (digest : Word)
deriving DecidableEq, Repr

def TypeId.classifyWord2 (id : TypeId) : Word2 :=
  if id.words[2] &&& escapeHatchMask = 0#64 then .fastLifetime id.words[2]
  else if id.words[3] &&& genericDigestFlag ≠ 0#64 then .genericDigest (id.words[2] &&& indexMask)
  else
    let arena := if id.words[3] &&& isGenericInstFlag ≠ 0#64 then Word2Arena.generics else .slowMeta
    let scope := if id.words[3] &&& localDeferredBit ≠ 0#64 then Word2Scope.localScope else .globalScope
    .index (id.words[2] &&& indexMask) arena scope

def withArenaFlag (w : Word) : Word2Arena → Word
  | .generics => w ||| isGenericInstFlag
  | .slowMeta => w &&& ~~~isGenericInstFlag

def withScopeFlag (w : Word) : Word2Scope → Word
  | .localScope => w ||| localDeferredBit
  | .globalScope => w &&& ~~~localDeferredBit

def TypeId.setArenaIndex (id : TypeId) (index : Word) (arena : Word2Arena) (scope : Word2Scope) : TypeId :=
  let word3 := withScopeFlag (withArenaFlag id.words[3] arena) scope &&& ~~~genericDigestFlag
  ⟨(id.words.set 2 (escapeHatchMask ||| (index &&& indexMask))).set 3 word3⟩

theorem classifyWord2_eq_index (id : TypeId) (i : Word) (arena : Word2Arena) (scope : Word2Scope) :
    id.classifyWord2 = .index i arena scope ↔ id.words[2].getLsbD 63 = true ∧ id.words[3].getLsbD 40 = false ∧
        id.words[3].getLsbD 41 = decide (arena = .generics) ∧
        id.words[3].getLsbD 43 = decide (scope = .localScope) ∧ id.words[2] &&& indexMask = i := by
  simp only [TypeId.classifyWord2, escapeHatchMask, genericDigestFlag, isGenericInstFlag, localDeferredBit,
    ne_eq, flag_clear_iff id.words[2] (show 63 < 64 by omega),
    flag_clear_iff id.words[3] (show 40 < 64 by omega), flag_clear_iff id.words[3] (show 41 < 64 by omega),
    flag_clear_iff id.words[3] (show 43 < 64 by omega)]
  cases h63 : id.words[2].getLsbD 63 <;> cases h40 : id.words[3].getLsbD 40 <;>
    cases h41 : id.words[3].getLsbD 41 <;> cases h43 : id.words[3].getLsbD 43 <;>
    cases arena <;> cases scope <;> simp

theorem withArenaFlag_bit (w : Word) (arena : Word2Arena) (j : ℕ) : (withArenaFlag w arena).getLsbD j =
      if j = 41 then decide (arena = .generics) else w.getLsbD j := by
  cases arena <;> simp only [withArenaFlag, isGenericInstFlag, getLsbD_setFlag _ (show 41 < 64 by omega),
      getLsbD_clearFlag _ (show 41 < 64 by omega)] <;>
    by_cases hj : j = 41 <;> simp [hj]

theorem withScopeFlag_bit (w : Word) (scope : Word2Scope) (j : ℕ) : (withScopeFlag w scope).getLsbD j =
      if j = 43 then decide (scope = .localScope) else w.getLsbD j := by
  cases scope <;> simp only [withScopeFlag, localDeferredBit, getLsbD_setFlag _ (show 43 < 64 by omega),
      getLsbD_clearFlag _ (show 43 < 64 by omega)] <;>
    by_cases hj : j = 43 <;> simp [hj]

theorem setArenaIndex_words (id : TypeId) (i : Word) (arena : Word2Arena) (scope : Word2Scope) :
    (id.setArenaIndex i arena scope).words[0] = id.words[0] ∧
      (id.setArenaIndex i arena scope).words[1] = id.words[1] := by
  simp [TypeId.setArenaIndex]

theorem setArenaIndex_word3_bit (id : TypeId) (i : Word) (arena : Word2Arena) (scope : Word2Scope) (j : ℕ) :
    (id.setArenaIndex i arena scope).words[3].getLsbD j =
      if j = 40 then false else if j = 43 then decide (scope = .localScope)
      else if j = 41 then decide (arena = .generics) else id.words[3].getLsbD j := by
  simp only [TypeId.setArenaIndex, Vector.getElem_set_self, genericDigestFlag,
    getLsbD_clearFlag _ (show 40 < 64 by omega), withScopeFlag_bit, withArenaFlag_bit]
  by_cases h40 : j = 40 <;> simp [h40]

theorem classifyWord2_setArenaIndex (id : TypeId) (i : Word) (arena : Word2Arena) (scope : Word2Scope)
    (hi : i.getLsbD 63 = false) : (id.setArenaIndex i arena scope).classifyWord2 = .index i arena scope := by
  have hmask : i &&& indexMask = i := clearFlag_of_clear i (by omega) hi
  have hword2 : (id.setArenaIndex i arena scope).words[2] = 1#64 <<< 63 ||| i := by
    simp only [TypeId.setArenaIndex, hmask]
    simp [escapeHatchMask]
  rw [classifyWord2_eq_index, hword2]
  refine ⟨?_, ?_, ?_, ?_, payload_of_topFlag 63 i hi⟩
  · rw [BitVec.or_comm, getLsbD_setFlag i (by omega)]
    exact Bool.or_true _
  all_goals rw [setArenaIndex_word3_bit]; rfl

theorem setArenaIndex_word3 {id : TypeId} {i : Word} {arena : Word2Arena} (j : Word)
    (h : id.classifyWord2 = .index i arena .localScope) :
    (id.setArenaIndex j arena .globalScope).words[3] = id.words[3] &&& ~~~localDeferredBit := by
  obtain ⟨_, h40, h41, _, _⟩ := (classifyWord2_eq_index _ _ _ _).mp h
  apply BitVec.eq_of_getLsbD_eq
  intro k hk
  rw [setArenaIndex_word3_bit, localDeferredBit, getLsbD_clearFlag _ (by omega)]
  split_ifs with hk40 hk43 hk41
  · rw [hk40, h40]
    rfl
  · simp [hk43]
  · rw [hk41, h41]
    simp
  · simp [hk43]

end Vx.Pipeline
