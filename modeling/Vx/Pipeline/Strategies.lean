import Vx.Pipeline.TypeStream

namespace Vx.Pipeline

open List Option AList BitVec
open Lib.Bits

def streamKey (resolve : Word → Option (List TypeId)) (id : TypeId) : Option (List TypeId) :=
  match id.classifyWord2 with
  | .index index .generics _ => resolve index
  | .genericDigest d => some [⟨#v[BitVec.allOnes 64, d, 0, 0]⟩]
  | _ => none

def canonicaliseFrom (resolve : Word → Option (List TypeId)) :
    (AList fun _ : List TypeId => ℕ) → List TypeId → List TypeId
  | _, [] => []
  | rank, id :: ids =>
    match streamKey resolve id with
    | none => id :: canonicaliseFrom resolve rank ids
    | some k =>
      match rank.lookup k with
      | some r => id.setArenaIndex (BitVec.ofNat 64 r) .generics .globalScope :: canonicaliseFrom resolve rank ids
      | none =>
        let next := rank.entries.length
        id.setArenaIndex (BitVec.ofNat 64 next) .generics .globalScope ::
          canonicaliseFrom resolve (rank.insert k next) ids

def canonicaliseStream (stream : List TypeId) (resolve : Word → Option (List TypeId)) : List TypeId :=
  canonicaliseFrom resolve ∅ stream

section

structure SameBase (a b : TypeId) : Prop where
  module : a.moduleId = b.moduleId
  symbol : a.symbolId = b.symbolId
  flags : ∀ j, j ≠ 40 → j ≠ 41 → j ≠ 43 →
    a.flags.getLsbD j = b.flags.getLsbD j

variable {a b : TypeId}

theorem SameBase.trans {c : TypeId} (h : SameBase a b) (h' : SameBase b c) : SameBase a c :=
  ⟨h.module.trans h'.module, h.symbol.trans h'.symbol,
    fun j h40 h41 h43 => (h.flags j h40 h41 h43).trans (h'.flags j h40 h41 h43)⟩

theorem SameBase.symm (h : SameBase a b) : SameBase b a :=
  ⟨h.module.symm, h.symbol.symm, fun j h40 h41 h43 => (h.flags j h40 h41 h43).symm⟩

theorem sameBase_setArenaIndex (id : TypeId) (i : Word) (arena : Word2Arena) (scope : Word2Scope) :
    SameBase (id.setArenaIndex i arena scope) id := by
  refine ⟨(setArenaIndex_words ..).1, (setArenaIndex_words ..).2, fun j h40 h41 h43 => ?_⟩
  simp [setArenaIndex_word3_bit, h40, h41, h43]

theorem SameBase.setArenaIndex_eq (h : SameBase a b) (i : Word) (arena : Word2Arena)
    (scope : Word2Scope) : a.setArenaIndex i arena scope = b.setArenaIndex i arena scope := by
  have hword3 : (a.setArenaIndex i arena scope).words[3] = (b.setArenaIndex i arena scope).words[3] := by
    apply eq_of_getLsbD_eq
    intro j hj
    simp only [setArenaIndex_word3_bit]
    split_ifs with h40 h43 h41
    · rfl
    · rfl
    · rfl
    · exact h.flags j h40 h41 h43
  rw [TypeId.mk.injEq]
  apply Vector.ext
  intro j hj
  interval_cases j
  · simpa [TypeId.setArenaIndex] using h.module
  · simpa [TypeId.setArenaIndex] using h.symbol
  · simp [TypeId.setArenaIndex]
  · exact hword3

theorem genericDigest_top (args : List TypeId) : (genericDigest args).getLsbD 63 = false := by
  rw [genericDigest, indexMask, escapeHatchMask, getLsbD_clearFlag _ (by omega)]
  simp

theorem setGenericDigest_word3_bit (id : TypeId) (d : Word) (j : ℕ) :
    (id.setGenericDigest d).flags.getLsbD j =
      if j = 43 then false else if j = 40 ∨ j = 41 then true else id.flags.getLsbD j := by
  simp only [TypeId.setGenericDigest, TypeId.withWord3, TypeId.flags, Vector.getElem_set_self, localDeferredBit, isGenericInstFlag,
    genericDigestFlag, ← BitVec.or_assoc, getLsbD_clearFlag _ (show 43 < 64 by omega),
    getLsbD_setFlag _ (show 41 < 64 by omega), getLsbD_setFlag _ (show 40 < 64 by omega)]
  by_cases h43 : j = 43
  · simp [h43]
  · by_cases h40 : j = 40
    · simp [h40]
    · by_cases h41 : j = 41 <;> simp [h40, h41, h43]

theorem sameBase_setGenericDigest (id : TypeId) (d : Word) : SameBase (id.setGenericDigest d) id := by
  refine ⟨by simp [TypeId.setGenericDigest], by simp [TypeId.setGenericDigest], fun j h40 h41 h43 => ?_⟩
  simp [setGenericDigest_word3_bit, h40, h41, h43]

theorem classifyWord2_setGenericDigest (id : TypeId) {d : Word} (hd : d.getLsbD 63 = false) :
    (id.setGenericDigest d).classifyWord2 = .genericDigest d := by
  have hword2 : (id.setGenericDigest d).words[2] = escapeHatchMask ||| d := by
    have hmask : d &&& indexMask = d := clearFlag_of_clear d (by omega) hd
    simp [TypeId.setGenericDigest, hmask]
  have h63 : ¬ (id.setGenericDigest d).words[2] &&& escapeHatchMask = 0#64 := by
    rw [escapeHatchMask, flag_clear_iff _ (by omega), hword2, escapeHatchMask, BitVec.or_comm,
      getLsbD_setFlag _ (by omega)]
    simp
  have h40 : (id.setGenericDigest d).words[3] &&& genericDigestFlag ≠ 0#64 := by
    rw [genericDigestFlag, Ne, flag_clear_iff _ (by omega), setGenericDigest_word3_bit]
    simp
  rw [TypeId.classifyWord2, if_neg h63, if_pos h40, hword2]
  exact congrArg Word2.genericDigest (payload_of_topFlag 63 d hd)

variable {resolve resolve' : Word → Option (List TypeId)}

def Emission.Resolved (resolve : Word → Option (List TypeId)) : Emission → TypeId → Prop
  | .plain id, new => new = id
  | .inst base args, new => streamKey resolve new = some args ∧ SameBase new base

def Emission.Digested : Emission → TypeId → Prop
  | .plain id, new => new = id
  | .inst base args, new => new = base.setGenericDigest (genericDigest args)

def digestKey (args : List TypeId) : List TypeId := [⟨#v[BitVec.allOnes 64, genericDigest args, 0, 0]⟩]

theorem streamKey_digested (base : TypeId) (args : List TypeId) :
    streamKey resolve (base.setGenericDigest (genericDigest args)) = some (digestKey args) := by
  simp [streamKey, classifyWord2_setGenericDigest base (genericDigest_top args), digestKey]

def Emission.Fast : Emission → Prop
  | .plain id => ∃ bits, id.classifyWord2 = .fastLifetime bits
  | .inst _ _ => True

def Emission.args : Emission → Option (List TypeId)
  | .plain _ => none
  | .inst _ args => some args

theorem digestKey_inj {args args' : List TypeId} (h : digestKey args = digestKey args') :
    genericDigest args = genericDigest args' := by
  simpa [digestKey] using h

structure SameRanks (occurring : List (List TypeId)) (rank rank' : AList fun _ : List TypeId => ℕ) : Prop where
  size : rank.entries.length = rank'.entries.length
  ranks : ∀ args ∈ occurring, rank'.lookup (digestKey args) = rank.lookup args

variable {occurring : List (List TypeId)}

theorem SameRanks.insert {rank rank' : AList fun _ : List TypeId => ℕ}
    (hinj : ∀ args ∈ occurring, ∀ args' ∈ occurring, genericDigest args = genericDigest args' → args = args')
    (h : SameRanks occurring rank rank') {args : List TypeId} (hargs : args ∈ occurring)
    (hnew : rank.lookup args = none) (r : ℕ) :
    SameRanks occurring (rank.insert args r) (rank'.insert (digestKey args) r) where
  size := by
    have hnew' := (h.ranks args hargs).trans hnew
    rw [lookup_eq_none] at hnew hnew'
    simp [kerase_of_notMem_keys hnew, kerase_of_notMem_keys hnew', h.size]
  ranks args' hargs' := by
    by_cases heq : args' = args
    · rw [heq, lookup_insert, lookup_insert]
    · have hne : digestKey args' ≠ digestKey args := fun h => heq (hinj _ hargs' _ hargs (digestKey_inj h))
      rw [lookup_insert_ne heq, lookup_insert_ne hne]
      exact h.ranks args' hargs'

variable {es : List Emission}

theorem canonicaliseFrom_eq
    (hinj : ∀ args ∈ occurring, ∀ args' ∈ occurring, genericDigest args = genericDigest args' → args = args')
    {ds cs : List TypeId} (hd : List.Forall₂ (Emission.Resolved resolve) es ds)
    (hc : List.Forall₂ Emission.Digested es cs) (hfast : ∀ e ∈ es, e.Fast)
    (hocc : ∀ e ∈ es, ∀ args, e.args = some args → args ∈ occurring)
    {rank rank' : AList fun _ : List TypeId => ℕ} (h : SameRanks occurring rank rank') :
    canonicaliseFrom resolve rank ds = canonicaliseFrom resolve' rank' cs := by
  induction hd generalizing cs rank rank' with
  | nil =>
    cases hc
    rfl
  | @cons e d es ds he _ ih =>
    obtain _ | ⟨he', hc⟩ := hc
    rename_i c cs
    have ih := fun rank rank' => @ih cs hc (fun e he => hfast e (mem_cons_of_mem _ he))
      (fun e he => hocc e (mem_cons_of_mem _ he)) rank rank'
    cases e with
    | plain id =>
      cases he
      cases he'
      obtain ⟨bits, hbits⟩ := hfast _ mem_cons_self
      simp only [canonicaliseFrom, streamKey, hbits]
      rw [ih rank rank' h]
    | inst base args =>
      obtain ⟨hkey, hbase⟩ := he
      cases he'
      have hargs : args ∈ occurring := hocc _ mem_cons_self args rfl
      have hsame : ∀ r : Word, d.setArenaIndex r .generics .globalScope =
          (base.setGenericDigest (genericDigest args)).setArenaIndex r .generics .globalScope :=
        fun r => (hbase.trans (sameBase_setGenericDigest base _).symm).setArenaIndex_eq r _ _
      simp only [canonicaliseFrom, hkey, streamKey_digested, h.ranks args hargs]
      cases hr : rank.lookup args with
      | some r =>
        simp only [hsame]
        rw [ih rank rank' h]
      | none =>
        simp only [hsame, ← h.size]
        rw [ih _ _ (h.insert hinj hargs hr _)]

theorem canonicaliseStream_eq (hinj : ∀ args ∈ es.filterMap Emission.args, ∀ args' ∈ es.filterMap Emission.args,
      genericDigest args = genericDigest args' → args = args')
    {ds cs : List TypeId} (hd : List.Forall₂ (Emission.Resolved resolve) es ds)
    (hc : List.Forall₂ Emission.Digested es cs) (hfast : ∀ e ∈ es, e.Fast) :
    canonicaliseStream ds resolve = canonicaliseStream cs resolve' := by
  refine canonicaliseFrom_eq hinj hd hc hfast (fun e he args hargs => ?_) ⟨rfl, fun _ _ => rfl⟩
  exact List.mem_filterMap.mpr ⟨e, he, hargs⟩

def Emission.Minted (worker : LocalWorkerState) : Emission → TypeId → Prop
  | .plain id, new => new = id
  | .inst base args, new => ∃ j < worker.localGenericsOffsets.length, worker.genericsAt j = some args ∧
      new = base.setArenaIndex (BitVec.ofNat 64 j) .generics .localScope

structure Emitted (es : List Emission) (worker : LocalWorkerState) : Prop where
  stream : List.Forall₂ (Emission.Minted worker) es worker.localTypeStream
  offsets : ∀ o ∈ worker.localGenericsOffsets, o.1 + o.2 ≤ worker.localGenericsArena.length

def emptyWorker : LocalWorkerState := ⟨[], [], [], []⟩

theorem genericsContent_append {arena : List TypeId} {offsets : List (ℕ × ℕ)} {i : ℕ} {gen : List TypeId}
    (args : List TypeId) (o : ℕ × ℕ) (h : genericsContent arena offsets i = some gen) :
    genericsContent (arena ++ args) (offsets ++ [o]) i = some gen := by
  obtain ⟨o', ho', hslice⟩ := Option.bind_eq_some_iff.mp h
  have hlt := (List.getElem?_eq_some_iff.mp ho').1
  simp only [genericsContent, List.getElem?_append_left hlt, ho', bind_some]
  exact slice_append args hslice

variable {worker : LocalWorkerState}

theorem Emitted.emit (h : Emitted es worker) (e : Emission) : Emitted (es ++ [e]) (emit .deferred worker e) := by
  cases e with
  | plain id => exact ⟨rel_append h.stream (.cons rfl .nil), h.offsets⟩
  | inst base args =>
    refine ⟨rel_append ?_ (.cons ?_ .nil), ?_⟩
    · refine h.stream.imp fun e id hid => ?_
      cases e with
      | plain => exact hid
      | inst =>
        obtain ⟨j, hj, hat, rfl⟩ := hid
        refine ⟨j, ?_, genericsContent_append _ _ hat, rfl⟩
        simp only [Pipeline.emit, mintGenericInMode, LocalWorkerState.push, length_append]
        omega
    · refine ⟨worker.localGenericsOffsets.length, ?_, ?_, rfl⟩
      · simp [Pipeline.emit, mintGenericInMode, LocalWorkerState.push]
      · simp only [Pipeline.emit, mintGenericInMode, LocalWorkerState.push, LocalWorkerState.genericsAt,
          genericsContent, List.getElem?_concat_length, bind_some]
        exact slice_end ..
    · intro o ho
      simp only [Pipeline.emit, mintGenericInMode, LocalWorkerState.push, mem_append, List.mem_singleton,
        length_append] at ho ⊢
      rcases ho with ho | rfl
      · have := h.offsets o ho
        omega
      · exact le_rfl

theorem emitted_foldl (es : List Emission) : Emitted es (es.foldl (emit .deferred) emptyWorker) := by
  suffices h : ∀ es₀ worker, Emitted es₀ worker → Emitted (es₀ ++ es) (es.foldl (emit .deferred) worker) from
    h [] emptyWorker ⟨.nil, by simp [emptyWorker]⟩
  induction es with
  | nil => simp
  | cons e es ih =>
    intro es₀ worker h
    simpa using ih _ _ (h.emit e)

structure Final (es : List Emission) (worker : LocalWorkerState) : Prop where
  stream : List.Forall₂ Emission.Digested es worker.localTypeStream
  generics : worker.localGenericsOffsets = []
  slow : worker.localSlowPathArena = []

theorem final_foldl (es : List Emission) : Final es (es.foldl (emit .content) emptyWorker) := by
  suffices h : ∀ es₀ worker, Final es₀ worker → Final (es₀ ++ es) (es.foldl (emit .content) worker) from
    h [] emptyWorker ⟨.nil, rfl, rfl⟩
  induction es with
  | nil => simp
  | cons e es ih =>
    intro es₀ worker h
    have hstep : Final (es₀ ++ [e]) (emit .content worker e) := by
      cases e <;> exact ⟨rel_append h.stream (.cons rfl .nil), h.generics, h.slow⟩
    simpa using ih _ _ hstep

theorem Final.not_local (h : Final es worker)
    (hfast : ∀ e ∈ es, e.Fast) {id : TypeId} (hid : id ∈ worker.localTypeStream) (i : Word) (arena : Word2Arena) :
    id.classifyWord2 ≠ .index i arena .localScope := by
  obtain ⟨n, hn⟩ := List.getElem?_of_mem hid
  obtain ⟨e, he, hfinal⟩ := forall₂_getElem? h.stream.flip hn
  cases e with
  | plain id' =>
    cases hfinal
    obtain ⟨bits, hbits⟩ := hfast _ (mem_of_getElem? he)
    simp [hbits]
  | inst base args =>
    cases hfinal
    simp [classifyWord2_setGenericDigest base (genericDigest_top args)]

theorem Final.inBounds (h : Final es worker) (hfast : ∀ e ∈ es, e.Fast) : worker.InBounds where
  offsets := by simp [h.generics]
  indices id hid i arena hi := absurd hi (h.not_local hfast hid i arena)

theorem Emitted.inBounds (h : Emitted es worker)
    (hfast : ∀ e ∈ es, e.Fast) (hfit : worker.localGenericsOffsets.length < 2 ^ 63) : worker.InBounds where
  offsets := h.offsets
  indices id hid i arena hi := by
    obtain ⟨n, hn⟩ := List.getElem?_of_mem hid
    obtain ⟨e, he, hminted⟩ := forall₂_getElem? h.stream.flip hn
    cases e with
    | plain id' =>
      cases hminted
      obtain ⟨bits, hbits⟩ := hfast _ (mem_of_getElem? he)
      rw [hbits] at hi
      cases hi
    | inst base args =>
      obtain ⟨j, hj, -, rfl⟩ := hminted
      rw [classifyWord2_setArenaIndex _ _ _ _ (getLsbD_top_of_lt (by omega))] at hi
      cases hi
      simp only [LocalWorkerState.entries, toNat_ofNat]
      omega

theorem resolved_of_patched {r : DeduplicationResult} {k : ℕ} {e : Emission}
    {old new : TypeId} (hminted : e.Minted worker old) (hpatched : r.Patched k old new) (hfast : e.Fast)
    (hfit : worker.localGenericsOffsets.length < 2 ^ 63) (hentry : ∀ j gen, worker.genericsAt j = some gen →
      ∃ g, r.mapped .generics k j = some g ∧ r.genericsAt g = some gen) :
    e.Resolved (fun i => r.genericsAt i.toNat) new := by
  cases e with
  | plain id =>
    cases hminted
    obtain ⟨bits, hbits⟩ := hfast
    simpa [DeduplicationResult.Patched, hbits, Emission.Resolved] using hpatched
  | inst base args =>
    obtain ⟨j, hj, hat, rfl⟩ := hminted
    have hcl := classifyWord2_setArenaIndex base (BitVec.ofNat 64 j) .generics .localScope
      (getLsbD_top_of_lt (by omega))
    have hval : (BitVec.ofNat 64 j).toNat = j := by
      rw [toNat_ofNat]
      omega
    simp only [DeduplicationResult.Patched, hcl, hval] at hpatched
    obtain ⟨g, hg, hnew, hmodule, hsymbol, hflags⟩ := hpatched
    obtain ⟨g', hg', hgen⟩ := hentry j args hat
    rw [hg, Option.some.injEq] at hg'
    refine ⟨by simp [streamKey, hnew, hg', hgen], SameBase.trans ⟨hmodule, hsymbol, fun i _ _ h43 => ?_⟩
      (sameBase_setArenaIndex base _ _ _)⟩
    rw [hflags, localDeferredBit, getLsbD_clearFlag _ (by omega)]
    simp [h43]

end

variable {E : Type} (names : Rendering E)

def checkTypes (mode : InternMode) (tys : List (Interface.Ty E)) : FunctionCheck :=
  ⟨emitTypeGids names mode tys emptyWorker⟩

def mintedArgs (work : List (List (Interface.Ty E))) : List (List TypeId) :=
  (work.flatMap (emissionsOf names)).filterMap Emission.args

def settledStreams (mode : InternMode) (session : GlobalSession) (work : List (List (Interface.Ty E))) :
    Option (DeduplicationResult × List (ℕ × List TypeId)) := do
  let checks := work.map (checkTypes names mode)
  let r ← deduplicationPhase checks session
  let streams ← simdPatchPhase (extractTypeStreams checks) r.slowPathThreadMappings r.genericsThreadMappings
  return (r, streams)

variable {names}

theorem forall₂_compose {α β γ : Type} {R : α → β → Prop} {S : β → γ → Prop} {T : α → γ → Prop} {xs : List α}
    {ys : List β} {zs : List γ} (h : List.Forall₂ R xs ys) (h' : List.Forall₂ S ys zs)
    (hT : ∀ x y z, x ∈ xs → y ∈ ys → R x y → S y z → T x z) : List.Forall₂ T xs zs := by
  induction h generalizing zs with
  | nil =>
    cases h'
    exact .nil
  | cons hr _ ih =>
    obtain _ | ⟨hs, h'⟩ := h'
    refine .cons (hT _ _ _ mem_cons_self mem_cons_self hr hs) (ih h' fun x y z hx hy => ?_)
    exact hT x y z (mem_cons_of_mem _ hx) (mem_cons_of_mem _ hy)

variable (names) in
theorem checkTypes_emitted (tys : List (Interface.Ty E)) :
    Emitted (emissionsOf names tys) (checkTypes names .deferred tys).worker := by
  rw [checkTypes, emitTypeGids_eq]
  exact emitted_foldl _

variable {session : GlobalSession}

theorem length_offsets_lt {checks : List FunctionCheck} (hfit : Fits session checks)
    {c : FunctionCheck} (hc : c ∈ checks) : c.worker.localGenericsOffsets.length < 2 ^ 63 := by
  have hle : c.worker.localGenericsOffsets.length ≤ (checks.map fun c => c.worker.localGenericsOffsets.length).sum :=
    single_le_sum (by simp) _ (List.mem_map_of_mem hc)
  have := hfit.2
  omega

variable {work : List (List (Interface.Ty E))}

/-- Each worker's stream is settled by patching it word by word. -/
theorem settledStreams_patched {mode : InternMode} (hs : session.InBounds)
    (hbounds : ∀ c ∈ work.map (checkTypes names mode), c.worker.InBounds)
    (hfit : Fits session (work.map (checkTypes names mode))) :
    ∃ r slow generics streams, settledStreams names mode session work = some (r, streams) ∧
      Settled session (work.map (checkTypes names mode)) r slow generics ∧
      ∀ P : List (Interface.Ty E) → List TypeId → Prop, (∀ k (hk : k < work.length) new, List.Forall₂ (r.Patched k)
        (checkTypes names mode work[k]).worker.localTypeStream new → P work[k] new) →
        List.Forall₂ (fun tys s => P tys s.2) work streams := by
  obtain ⟨r, slow, generics, hr, hsettled⟩ := deduplicationPhase_settled hs hbounds
  obtain ⟨streams, hstreams, hpatched⟩ := simdPatchPhase_patched hsettled hbounds hfit
  refine ⟨r, slow, generics, streams, by simp [settledStreams, hr, hstreams], hsettled, fun P hP => ?_⟩
  have hlength : work.length = streams.length := by
    simpa [extractTypeStreams] using hpatched.length_eq
  refine List.forall₂_iff_get.mpr ⟨hlength, fun k hk hk' => ?_⟩
  have hold : (extractTypeStreams (work.map (checkTypes names mode)))[k]? =
      some (k, (checkTypes names mode work[k]).worker.localTypeStream) := by
    simp [extractTypeStreams, hk]
  obtain ⟨new, hnew, -, hp⟩ := forall₂_getElem? hpatched hold
  rw [List.getElem?_eq_getElem hk', Option.some.injEq] at hnew
  rw [get_eq_getElem, get_eq_getElem, hnew]
  exact hP k hk new.2 hp

theorem settledStreams_deferred (hs : session.InBounds) (hfit : Fits session (work.map (checkTypes names .deferred)))
    (hfast : ∀ e ∈ work.flatMap (emissionsOf names), e.Fast) :
    ∃ r streams, settledStreams names .deferred session work = some (r, streams) ∧
      List.Forall₂ (fun tys s => List.Forall₂ (Emission.Resolved fun i => r.genericsAt i.toNat)
        (emissionsOf names tys) s.2) work streams := by
  have hfast' : ∀ tys ∈ work, ∀ e ∈ emissionsOf names tys, e.Fast := fun tys htys e he =>
    hfast e (List.mem_flatMap.mpr ⟨tys, htys, he⟩)
  have hbounds : ∀ c ∈ work.map (checkTypes names .deferred), c.worker.InBounds := by
    intro c hc
    obtain ⟨tys, htys, rfl⟩ := List.mem_map.mp hc
    exact (checkTypes_emitted names tys).inBounds (hfast' tys htys) (length_offsets_lt hfit hc)
  obtain ⟨r, slow, generics, streams, hr, hsettled, hstreams⟩ := settledStreams_patched hs hbounds hfit
  refine ⟨r, streams, hr, hstreams _ fun k hk new hp => ?_⟩
  have hcheck : (work.map (checkTypes names .deferred))[k]? = some (checkTypes names .deferred work[k]) := by
    simp [hk]
  have hmem := mem_of_getElem? hcheck
  refine forall₂_compose (checkTypes_emitted names work[k]).stream hp fun e old new he _ hminted hpatch => ?_
  refine resolved_of_patched hminted hpatch (hfast' _ (getElem_mem hk) e he) (length_offsets_lt hfit hmem) ?_
  intro j gen hgen
  obtain ⟨g, hg, -, hat⟩ := hsettled.generics_entry hbounds hcheck hgen
  exact ⟨g, hg, hat⟩

variable (names) in
theorem checkTypes_final (tys : List (Interface.Ty E)) :
    Final (emissionsOf names tys) (checkTypes names .content tys).worker := by
  rw [checkTypes, emitTypeGids_eq]
  exact final_foldl _

theorem fits_content (hfit : Fits session (work.map (checkTypes names .deferred))) :
    Fits session (work.map (checkTypes names .content)) := by
  have hzero : ∀ f : FunctionCheck → ℕ, (∀ tys, f (checkTypes names .content tys) = 0) →
      ((work.map (checkTypes names .content)).map f).sum = 0 := by
    intro f hf
    simp [Function.comp_def, hf]
  obtain ⟨hslow, hgenerics⟩ := hfit
  refine ⟨?_, ?_⟩
  · rw [hzero _ fun tys => by simp [(checkTypes_final names tys).slow]]
    omega
  · rw [hzero _ fun tys => by simp [(checkTypes_final names tys).generics]]
    omega

theorem settledStreams_content (hs : session.InBounds) (hfit : Fits session (work.map (checkTypes names .deferred)))
    (hfast : ∀ e ∈ work.flatMap (emissionsOf names), e.Fast) :
    ∃ r streams, settledStreams names .content session work = some (r, streams) ∧
      List.Forall₂ (fun tys s => List.Forall₂ Emission.Digested (emissionsOf names tys) s.2) work streams := by
  have hfast' : ∀ tys ∈ work, ∀ e ∈ emissionsOf names tys, e.Fast := fun tys htys e he =>
    hfast e (List.mem_flatMap.mpr ⟨tys, htys, he⟩)
  have hbounds : ∀ c ∈ work.map (checkTypes names .content), c.worker.InBounds := by
    intro c hc
    obtain ⟨tys, htys, rfl⟩ := List.mem_map.mp hc
    exact (checkTypes_final names tys).inBounds (hfast' tys htys)
  obtain ⟨r, slow, generics, streams, hr, -, hstreams⟩ := settledStreams_patched hs hbounds (fits_content hfit)
  refine ⟨r, streams, hr, hstreams _ fun k hk new hp => ?_⟩
  have hfinal := checkTypes_final names work[k]
  have hsame : (checkTypes names .content work[k]).worker.localTypeStream = new := by
    refine forall₂_eq_eq_eq ▸ forall₂_compose (List.forall₂_same.mpr fun _ _ => rfl) hp ?_
    rintro old _ patched hold - rfl hpatch
    unfold DeduplicationResult.Patched at hpatch
    split at hpatch
    next i arena hi => exact absurd hi (hfinal.not_local (hfast' _ (getElem_mem hk)) hold i arena)
    next => exact hpatch.symm
  rw [← hsame]
  exact hfinal.stream

/-- However the types are split among workers, the two strategies give streams with one canonical form, worker by
worker and for the whole program. -/
theorem strategies_agree (names : Rendering E) (session : GlobalSession) (work : List (List (Interface.Ty E)))
    (hs : session.InBounds) (hfit : Fits session (work.map (checkTypes names .deferred)))
    (hfast : ∀ e ∈ work.flatMap (emissionsOf names), e.Fast)
    (hinj : ∀ args ∈ mintedArgs names work, ∀ args' ∈ mintedArgs names work,
      genericDigest args = genericDigest args' → args = args') :
    ∃ r streams r' streams', settledStreams names .deferred session work = some (r, streams) ∧
      settledStreams names .content session work = some (r', streams') ∧
      ∀ resolve', List.Forall₂ (fun s s' => canonicaliseStream s.2 (fun i => r.genericsAt i.toNat) =
          canonicaliseStream s'.2 resolve') streams streams' ∧
        canonicaliseStream (streams.flatMap Prod.snd) (fun i => r.genericsAt i.toNat) =
          canonicaliseStream (streams'.flatMap Prod.snd) resolve' := by
  obtain ⟨r, streams, hd, hresolved⟩ := settledStreams_deferred hs hfit hfast
  obtain ⟨r', streams', hc, hdigested⟩ := settledStreams_content hs hfit hfast
  refine ⟨r, streams, r', streams', hd, hc, fun resolve' => ⟨?_, ?_⟩⟩
  · refine forall₂_compose hresolved.flip hdigested fun s tys s' _ htys hres hdig => ?_
    have hoccurs : emissionsOf names tys ⊆ work.flatMap (emissionsOf names) := fun e he =>
      List.mem_flatMap.mpr ⟨tys, htys, he⟩
    refine canonicaliseStream_eq (fun args hargs args' hargs' => ?_) hres hdig fun e he => hfast e (hoccurs he)
    exact hinj args ((filterMap_subset _ hoccurs) hargs) args' ((filterMap_subset _ hoccurs) hargs')
  · exact canonicaliseStream_eq hinj (rel_flatMap hresolved fun _ _ h => h)
      (rel_flatMap hdigested fun _ _ h => h) hfast

def shortNames : Rendering Unit where
  element := fun
    | .i32 => "I32"
    | _ => "F32"
  constant _ := ""
  identifier _ := none

def vecOf (ty : Interface.Ty Unit) : Interface.Ty Unit := .genericInstance (.struct "Vec" (some (plainGid 9))) [ty]

def nestedWork : List (List (Interface.Ty Unit)) :=
  [[vecOf (vecOf (.scalar .i32)), vecOf (.scalar .f32)],
    [vecOf (.scalar .f32), .struct "Point" (some (plainGid 5)), vecOf (vecOf (.scalar .i32)), vecOf (.scalar .i32)]]

theorem strategies_agree_nestedWork :
    ∃ r streams r' streams', settledStreams shortNames .deferred ⟨[], [], []⟩ nestedWork = some (r, streams) ∧
      settledStreams shortNames .content ⟨[], [], []⟩ nestedWork = some (r', streams') ∧
      ∀ resolve', List.Forall₂ (fun s s' => canonicaliseStream s.2 (fun i => r.genericsAt i.toNat) =
          canonicaliseStream s'.2 resolve') streams streams' ∧
        canonicaliseStream (streams.flatMap Prod.snd) (fun i => r.genericsAt i.toNat) =
          canonicaliseStream (streams'.flatMap Prod.snd) resolve' := by
  refine strategies_agree shortNames ⟨[], [], []⟩ nestedWork (by simp [GlobalSession.InBounds])
    (by constructor <;> decide) ?_ (by decide)
  simp only [nestedWork, vecOf, flatMap_cons, flatMap_nil, emissionsOf, emissions, nominalGid, nominalGids]
  simp [Emission.Fast, plainGid, TypeId.classifyWord2]

end Vx.Pipeline
