import Vx.Pipeline.PatchPhase

namespace Vx.Pipeline

open List Option BitVec Function
open Lib.Interner

namespace DeduplicationResult

def mapped (r : DeduplicationResult) (arena : Word2Arena) (k j : ℕ) : Option ℕ :=
  match arena with
  | .generics => r.genericsThreadMappings[k]?.bind (·[j]?)
  | .slowMeta => r.slowPathThreadMappings[k]?.bind (·[j]?)

def genericsAt (r : DeduplicationResult) (i : ℕ) : Option (List TypeId) :=
  genericsContent r.genericsArena r.genericsOffsets i

def Patched (r : DeduplicationResult) (k : ℕ) (old new : TypeId) : Prop :=
  match old.classifyWord2 with
  | .index i arena .localScope => ∃ g : Word, r.mapped arena k i.toNat = some g.toNat ∧
      new.classifyWord2 = .index g arena .globalScope ∧ new.moduleId = old.moduleId ∧
      new.symbolId = old.symbolId ∧ new.flags = old.flags &&& ~~~localDeferredBit
  | _ => new = old

end DeduplicationResult

def LocalWorkerState.genericsAt (w : LocalWorkerState) (i : ℕ) : Option (List TypeId) :=
  genericsContent w.localGenericsArena w.localGenericsOffsets i

def GlobalSession.genericsAt (session : GlobalSession) (i : ℕ) : Option (List TypeId) :=
  genericsContent session.genericsArena session.genericsOffsets i

def Fits (session : GlobalSession) (checks : List FunctionCheck) : Prop :=
  session.slowPathArena.length + (checks.map fun c => c.worker.localSlowPathArena.length).sum < 2 ^ 63 ∧
    session.genericsOffsets.length + (checks.map fun c => c.worker.localGenericsOffsets.length).sum < 2 ^ 63

variable {α : Type}

theorem forall₂_getElem? {β : Type} {r : α → β → Prop} {xs : List α} {ys : List β}
    (h : List.Forall₂ r xs ys) {i : ℕ} {a : α} (ha : xs[i]? = some a) : ∃ b, ys[i]? = some b ∧ r a b := by
  obtain ⟨hi, rfl⟩ := List.getElem?_eq_some_iff.mp ha
  have hi' : i < ys.length := h.length_eq ▸ hi
  exact ⟨ys[i], List.getElem?_eq_getElem hi', h.get hi hi'⟩

theorem forall₂_nested_get {β : Type} {r : α → β → Prop} {xss : List (List α)} {yss : List (List β)}
    (h : List.Forall₂ (List.Forall₂ r) xss yss) {k j : ℕ} {a : α}
    (ha : xss[k]?.bind (·[j]?) = some a) : ∃ b, yss[k]?.bind (·[j]?) = some b ∧ r a b := by
  obtain ⟨xs, hxs, hj⟩ := Option.bind_eq_some_iff.mp ha
  obtain ⟨ys, hys, hp⟩ := forall₂_getElem? h hxs
  obtain ⟨b, hb, hr⟩ := forall₂_getElem? hp hj
  exact ⟨b, by simp [hys, hb], hr⟩

theorem getElem?_of_prefix {xs ys : List α} (h : xs <+: ys) {i : ℕ} (hi : i < xs.length) : ys[i]? = xs[i]? := by
  obtain ⟨zs, rfl⟩ := h
  exact List.getElem?_append_left hi

structure Settled (session : GlobalSession) (checks : List FunctionCheck) (r : DeduplicationResult)
    (slow : Table UnboundedFunctionMetadata) (generics : Table (List TypeId)) : Prop where
  slowArena : r.slowPathArena = slow.entries
  genericsLists : Lists r.genericsArena r.genericsOffsets generics.entries
  slowPrefix : session.slowPathArena <+: slow.entries
  genericsPrefix : session.genericsContents <+: generics.entries
  slowMapped : List.Forall₂ (List.Forall₂ fun a i => slow.index.lookup a = some i)
    (checks.map FunctionCheck.slowContents) r.slowPathThreadMappings
  genericsMapped : List.Forall₂ (List.Forall₂ fun a i => generics.index.lookup a = some i)
    (checks.map FunctionCheck.genericsContents) r.genericsThreadMappings
  slowSize : slow.entries.length ≤
    session.slowPathArena.length + (checks.map fun c => c.worker.localSlowPathArena.length).sum
  genericsSize : generics.entries.length ≤
    session.genericsOffsets.length + (checks.map fun c => c.worker.localGenericsOffsets.length).sum

variable {checks : List FunctionCheck} {session : GlobalSession}

theorem deduplicationPhase_settled (hs : session.InBounds) (hc : ∀ c ∈ checks, c.worker.InBounds) :
    ∃ r slow generics, deduplicationPhase checks session = some r ∧ Settled session checks r slow generics := by
  obtain ⟨m, hm, hr⟩ := merge_represents hs
  obtain ⟨ms, m', hms, hslow, hgen, hr'⟩ := mergeWorkers_represents hc hr
  refine ⟨_, (Table.ofEntries session.slowPathArena |>.internLists (checks.map FunctionCheck.slowContents)).2,
    (Table.ofEntries session.genericsContents |>.internLists (checks.map FunctionCheck.genericsContents)).2,
    by simp only [deduplicationPhase, hm, hms, bind_eq_bind, bind_some]; rfl, ?_⟩
  constructor
  · exact hr'.slowEntries
  · exact hr'.genericsEntries
  · exact internLists_entries_grow _ (.ofEntries session.slowPathArena)
  · exact internLists_entries_grow _ (.ofEntries session.genericsContents)
  · simpa only [hslow] using internLists_lookup _ _
  · simpa only [hgen] using internLists_lookup _ _
  · have h := internLists_length_le (checks.map FunctionCheck.slowContents) (.ofEntries session.slowPathArena)
    simpa [Table.ofEntries, comp_def, FunctionCheck.slowContents] using h
  · have h := internLists_length_le (checks.map FunctionCheck.genericsContents) (.ofEntries session.genericsContents)
    simpa [Table.ofEntries, comp_def, FunctionCheck.genericsContents, GlobalSession.genericsContents] using h

section
variable {r : DeduplicationResult} {slow : Table UnboundedFunctionMetadata} {generics : Table (List TypeId)}
  {c : FunctionCheck}

theorem genericsContents_get (hc : c.worker.InBounds) (j : ℕ) : c.genericsContents[j]? = c.worker.genericsAt j :=
  ((lists_sliceD hc.offsets).content j).symm

variable {j k : ℕ} (h : Settled session checks r slow generics)
include h

theorem Settled.generics_entry (hc : ∀ c ∈ checks, c.worker.InBounds) {gen : List TypeId}
    (hk : checks[k]? = some c) (hj : c.worker.genericsAt j = some gen) :
    ∃ g, r.mapped .generics k j = some g ∧ generics.index.lookup gen = some g ∧ r.genericsAt g = some gen := by
  have hget : (checks.map FunctionCheck.genericsContents)[k]?.bind (·[j]?) = some gen := by
    simp [hk, genericsContents_get (hc c (mem_of_getElem? hk)), hj]
  obtain ⟨g, hg, hl⟩ := forall₂_nested_get h.genericsMapped hget
  refine ⟨g, hg, hl, ?_⟩
  rw [DeduplicationResult.genericsAt, h.genericsLists.content]
  exact generics.sound gen g hl

theorem Settled.slow_entry {entry : UnboundedFunctionMetadata} (hk : checks[k]? = some c)
    (hj : c.worker.localSlowPathArena[j]? = some entry) :
    ∃ g, r.mapped .slowMeta k j = some g ∧ slow.index.lookup entry = some g ∧ r.slowPathArena[g]? = some entry := by
  have hget : (checks.map FunctionCheck.slowContents)[k]?.bind (·[j]?) = some entry := by
    simp [hk, FunctionCheck.slowContents, hj]
  obtain ⟨g, hg, hl⟩ := forall₂_nested_get h.slowMapped hget
  exact ⟨g, hg, hl, h.slowArena ▸ slow.sound entry g hl⟩

theorem Settled.session_entry (hs : session.InBounds) : session.slowPathArena <+: r.slowPathArena ∧
      ∀ i < session.genericsOffsets.length, r.genericsAt i = session.genericsAt i := by
  refine ⟨h.slowArena ▸ h.slowPrefix, ?_⟩
  intro i hi
  rw [DeduplicationResult.genericsAt, h.genericsLists.content,
    getElem?_of_prefix h.genericsPrefix (by simpa [GlobalSession.genericsContents] using hi)]
  exact ((lists_sliceD hs).content i).symm

theorem Settled.mapped_lt (hc : ∀ c ∈ checks, c.worker.InBounds) (hfit : Fits session checks)
    {arena : Word2Arena} (hk : checks[k]? = some c) (hj : j < c.worker.entries arena) :
    ∃ g, r.mapped arena k j = some g ∧ g < 2 ^ 63 := by
  cases arena with
  | generics =>
    have hlen : j < c.genericsContents.length := by
      simpa [FunctionCheck.genericsContents, LocalWorkerState.entries] using hj
    have hget := genericsContents_get (hc c (mem_of_getElem? hk)) j
    rw [List.getElem?_eq_getElem hlen] at hget
    obtain ⟨g, hg, hl, _⟩ := h.generics_entry hc hk hget.symm
    have hlt := (List.getElem?_eq_some_iff.mp (generics.sound _ g hl)).1
    exact ⟨g, hg, by have := h.genericsSize; have := hfit.2; omega⟩
  | slowMeta =>
    obtain ⟨g, hg, hl, _⟩ := h.slow_entry hk (List.getElem?_eq_getElem hj)
    have hlt := (List.getElem?_eq_some_iff.mp (slow.sound _ g hl)).1
    exact ⟨g, hg, by have := h.slowSize; have := hfit.1; omega⟩

end

variable {r : DeduplicationResult}

theorem patchGid_patched {k : ℕ} {slow generics : List ℕ} {gid : TypeId}
    (hslow : r.slowPathThreadMappings[k]? = some slow) (hgen : r.genericsThreadMappings[k]? = some generics)
    (h : ∀ i arena, gid.classifyWord2 = .index i arena .localScope →
      ∃ g, r.mapped arena k i.toNat = some g ∧ g < 2 ^ 63) :
    ∃ gid', patchGid slow generics gid = some gid' ∧ r.Patched k gid gid' := by
  by_cases hl : ∃ i arena, gid.classifyWord2 = .index i arena .localScope
  · obtain ⟨i, arena, hcl⟩ := hl
    obtain ⟨g, hg, hlt⟩ := h i arena hcl
    have hval : (BitVec.ofNat 64 g).toNat = g := by
      exact Nat.mod_eq_of_lt (by omega)
    have hpatch : patchGid slow generics gid = some (gid.setArenaIndex (BitVec.ofNat 64 g) arena .globalScope) := by
      cases arena with
      | generics =>
        have hgi : generics[i.toNat]? = some g := by simpa [DeduplicationResult.mapped, hgen] using hg
        simp [patchGid, hcl, hgi]
      | slowMeta =>
        have hgi : slow[i.toNat]? = some g := by simpa [DeduplicationResult.mapped, hslow] using hg
        simp [patchGid, hcl, hgi]
    refine ⟨_, hpatch, ?_⟩
    simp only [DeduplicationResult.Patched, hcl]
    exact ⟨_, by rw [hval, hg], classifyWord2_setArenaIndex _ _ _ _ (Lib.Bits.getLsbD_top_of_lt hlt),
      (setArenaIndex_words _ _ _ _).1, (setArenaIndex_words _ _ _ _).2, setArenaIndex_word3 _ hcl⟩
  · refine ⟨gid, ?_, ?_⟩
    · unfold patchGid
      split
      · exact absurd ⟨_, _, ‹_›⟩ hl
      · rfl
    · unfold DeduplicationResult.Patched
      split
      · exact absurd ⟨_, _, ‹_›⟩ hl
      · rfl

theorem simdPatchPhase_patched {slow : Table UnboundedFunctionMetadata} {generics : Table (List TypeId)}
    (h : Settled session checks r slow generics) (hc : ∀ c ∈ checks, c.worker.InBounds) (hfit : Fits session checks) :
    ∃ streams, simdPatchPhase (extractTypeStreams checks) r.slowPathThreadMappings
        r.genericsThreadMappings = some streams ∧
      List.Forall₂ (fun old new => new.1 = old.1 ∧ List.Forall₂ (r.Patched old.1) old.2 new.2)
        (extractTypeStreams checks) streams := by
  apply mapM_forall₂
  intro s hmem
  obtain ⟨k, c, hk, rfl⟩ : ∃ k c, checks[k]? = some c ∧ s = (k, c.worker.localTypeStream) := by
    obtain ⟨k, hk⟩ := List.getElem?_of_mem hmem
    rw [extractTypeStreams, List.getElem?_mapIdx, map_eq_some_iff] at hk
    obtain ⟨c, hc, rfl⟩ := hk
    exact ⟨k, c, hc, rfl⟩
  have hlt : k < checks.length := (List.getElem?_eq_some_iff.mp hk).1
  have hslow : k < r.slowPathThreadMappings.length := by
    simpa [← h.slowMapped.length_eq] using hlt
  have hgen : k < r.genericsThreadMappings.length := by
    simpa [← h.genericsMapped.length_eq] using hlt
  obtain ⟨s', hs', hr⟩ := patchStream_forall₂ (s := (k, c.worker.localTypeStream)) (r := r.Patched k)
    (List.getElem?_eq_getElem hslow) (List.getElem?_eq_getElem hgen) (by
      intro gid hgid
      apply patchGid_patched (List.getElem?_eq_getElem hslow) (List.getElem?_eq_getElem hgen)
      intro i arena hcl
      exact h.mapped_lt hc hfit hk ((hc c (mem_of_getElem? hk)).indices gid hgid i arena hcl))
  exact ⟨_, hs', rfl, hr⟩

theorem genericsAt_isSome {w : LocalWorkerState} (hw : w.InBounds) {j : ℕ}
    (hj : j < w.localGenericsOffsets.length) : ∃ gen, w.genericsAt j = some gen := by
  have h := (lists_sliceD hw.offsets).content j
  rw [List.getElem?_eq_getElem (by simpa using hj)] at h
  exact ⟨_, h⟩

theorem interning_barrier (session : GlobalSession) (checks : List FunctionCheck)
    (hs : session.InBounds) (hc : ∀ c ∈ checks, c.worker.InBounds) (hfit : Fits session checks) :
    ∃ r streams, deduplicationPhase checks session = some r ∧
      simdPatchPhase (extractTypeStreams checks) r.slowPathThreadMappings r.genericsThreadMappings =
        some streams ∧
      (∀ k c, checks[k]? = some c →
        (∀ j < c.worker.localGenericsOffsets.length, ∃ gen g, c.worker.genericsAt j = some gen ∧
          r.mapped .generics k j = some g ∧ r.genericsAt g = some gen) ∧
        ∀ j < c.worker.localSlowPathArena.length, ∃ g, r.mapped .slowMeta k j = some g ∧
          r.slowPathArena[g]? = c.worker.localSlowPathArena[j]?) ∧
      (∀ k c k' c' j j', checks[k]? = some c → checks[k']? = some c' →
        (j < c.worker.localGenericsOffsets.length → j' < c'.worker.localGenericsOffsets.length →
          (r.mapped .generics k j = r.mapped .generics k' j' ↔
            c.worker.genericsAt j = c'.worker.genericsAt j')) ∧
        (j < c.worker.localSlowPathArena.length → j' < c'.worker.localSlowPathArena.length →
          (r.mapped .slowMeta k j = r.mapped .slowMeta k' j' ↔
            c.worker.localSlowPathArena[j]? = c'.worker.localSlowPathArena[j']?))) ∧
      session.slowPathArena <+: r.slowPathArena ∧
      (∀ i < session.genericsOffsets.length, r.genericsAt i = session.genericsAt i) ∧
      List.Forall₂ (fun old new => new.1 = old.1 ∧ List.Forall₂ (r.Patched old.1) old.2 new.2)
        (extractTypeStreams checks) streams := by
  obtain ⟨r, slow, generics, hr, h⟩ := deduplicationPhase_settled hs hc
  obtain ⟨streams, hstreams, hpatched⟩ := simdPatchPhase_patched h hc hfit
  refine ⟨r, streams, hr, hstreams, ?_, ?_, (h.session_entry hs).1, (h.session_entry hs).2, hpatched⟩
  · intro k c hk
    refine ⟨fun j hj => ?_, fun j hj => ?_⟩
    · obtain ⟨gen, hgen⟩ := genericsAt_isSome (hc c (mem_of_getElem? hk)) hj
      obtain ⟨g, hg, _, hget⟩ := h.generics_entry hc hk hgen
      exact ⟨gen, g, hgen, hg, hget⟩
    · obtain ⟨g, hg, _, hget⟩ := h.slow_entry hk (List.getElem?_eq_getElem hj)
      exact ⟨g, hg, by rw [hget, List.getElem?_eq_getElem hj]⟩
  · intro k c k' c' j j' hk hk'
    refine ⟨fun hj hj' => ?_, fun hj hj' => ?_⟩
    · obtain ⟨a, ha⟩ := genericsAt_isSome (hc c (mem_of_getElem? hk)) hj
      obtain ⟨b, hb⟩ := genericsAt_isSome (hc c' (mem_of_getElem? hk')) hj'
      obtain ⟨g, hg, hl, _⟩ := h.generics_entry hc hk ha
      obtain ⟨g', hg', hl', _⟩ := h.generics_entry hc hk' hb
      rw [hg, hg', ha, hb, Option.some.injEq, Option.some.injEq]
      exact lookup_eq_iff generics hl hl'
    · obtain ⟨g, hg, hl, _⟩ := h.slow_entry hk (List.getElem?_eq_getElem hj)
      obtain ⟨g', hg', hl', _⟩ := h.slow_entry hk' (List.getElem?_eq_getElem hj')
      rw [hg, hg', List.getElem?_eq_getElem hj, List.getElem?_eq_getElem hj', Option.some.injEq,
        Option.some.injEq]
      exact lookup_eq_iff slow hl hl'

def plainGid (symbol : Word) : TypeId := ⟨#v[7, symbol, 0, 0]⟩

def oneGenericWorker (symbol : Word) : FunctionCheck where
  worker :=
    { localSlowPathArena := []
      localGenericsArena := [plainGid 5, plainGid symbol]
      localGenericsOffsets := [(1, 1)]
      localTypeStream := [plainGid 5, (plainGid 9).setArenaIndex 0 .generics .localScope] }

def oneGenericSession : GlobalSession where
  slowPathArena := []
  genericsArena := [plainGid 1]
  genericsOffsets := [(0, 1)]

theorem oneGenericWorker_inBounds (symbol : Word) : (oneGenericWorker symbol).worker.InBounds where
  offsets := by simp [oneGenericWorker]
  indices := by
    intro id hid i arena h
    simp only [oneGenericWorker, mem_cons, not_mem_nil, or_false] at hid
    rcases hid with rfl | rfl
    · simp [plainGid, TypeId.classifyWord2] at h
    · rw [classifyWord2_setArenaIndex _ _ _ _ (by decide)] at h
      cases h
      simp [oneGenericWorker, LocalWorkerState.entries]

theorem interning_barrier_three_workers : ∃ r streams,
    deduplicationPhase [oneGenericWorker 2, oneGenericWorker 3, oneGenericWorker 2] oneGenericSession = some r ∧
      simdPatchPhase (extractTypeStreams [oneGenericWorker 2, oneGenericWorker 3, oneGenericWorker 2])
        r.slowPathThreadMappings r.genericsThreadMappings = some streams ∧
      r.mapped .generics 0 0 = r.mapped .generics 2 0 ∧
      r.mapped .generics 0 0 ≠ r.mapped .generics 1 0 := by
  obtain ⟨r, streams, hr, hs, _, hsame, _⟩ := interning_barrier oneGenericSession
    [oneGenericWorker 2, oneGenericWorker 3, oneGenericWorker 2] (by simp [GlobalSession.InBounds, oneGenericSession])
    (by simp [oneGenericWorker_inBounds]) (by simp [Fits, oneGenericSession, oneGenericWorker])
  refine ⟨r, streams, hr, hs, ?_, ?_⟩
  · exact ((hsame 0 _ 2 _ 0 0 rfl rfl).1 (by decide) (by decide)).mpr rfl
  · rw [Ne, (hsame 0 _ 1 _ 0 0 rfl rfl).1 (by decide) (by decide)]
    decide

end Vx.Pipeline
