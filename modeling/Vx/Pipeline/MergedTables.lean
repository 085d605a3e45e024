import Vx.Pipeline.Deduplication

namespace Vx.Pipeline

open List Option
open Lib.Interner

def GlobalSession.InBounds (session : GlobalSession) : Prop :=
  ∀ o ∈ session.genericsOffsets, o.1 + o.2 ≤ session.genericsArena.length

def LocalWorkerState.entries (w : LocalWorkerState) : Word2Arena → ℕ
  | .generics => w.localGenericsOffsets.length
  | .slowMeta => w.localSlowPathArena.length

structure LocalWorkerState.InBounds (w : LocalWorkerState) : Prop where
  offsets : ∀ o ∈ w.localGenericsOffsets, o.1 + o.2 ≤ w.localGenericsArena.length
  indices : ∀ id ∈ w.localTypeStream, ∀ i arena, id.classifyWord2 = .index i arena .localScope →
    i.toNat < w.entries arena

def genericsContent (arena : List TypeId) (offsets : List (ℕ × ℕ)) (i : ℕ) : Option (List TypeId) :=
  offsets[i]?.bind fun o => slice arena o.1 o.2

def sliceD (arena : List TypeId) (o : ℕ × ℕ) : List TypeId := (slice arena o.1 o.2).getD []

variable {α : Type} {len start : ℕ}

theorem slice_of_le {arena : List α} (h : start + len ≤ arena.length) :
    slice arena start len = some ((arena.drop start).take len) := by
  simp [slice, h]

variable {arena : List TypeId} {o : ℕ × ℕ}

theorem slice_eq_sliceD (h : o.1 + o.2 ≤ arena.length) : slice arena o.1 o.2 = some (sliceD arena o) := by
  simp [sliceD, slice_of_le h]

variable {gen : List α}

theorem slice_append {arena : List α} (rest : List α)
    (h : slice arena start len = some gen) : slice (arena ++ rest) start len = some gen := by
  by_cases hle : start + len ≤ arena.length
  · rw [slice_of_le hle] at h
    rw [slice_of_le (by simp; omega), ← h, drop_append_of_le_length (by omega),
      take_append_of_le_length (by simp; omega)]
  · simp [slice, hle] at h

theorem slice_length {arena : List α} (h : slice arena start len = some gen) : gen.length = len := by
  unfold slice at h
  split_ifs at h with hle
  rw [← Option.some.inj h, length_take, length_drop]
  omega

theorem slice_end (arena gen : List α) : slice (arena ++ gen) arena.length gen.length = some gen := by
  simp [slice]

def Lists (arena : List TypeId) (offsets : List (ℕ × ℕ)) (contents : List (List TypeId)) : Prop :=
  List.Forall₂ (fun o gen => slice arena o.1 o.2 = some gen) offsets contents

variable {offsets : List (ℕ × ℕ)} {contents : List (List TypeId)}

theorem Lists.content (h : Lists arena offsets contents) (i : ℕ) : genericsContent arena offsets i = contents[i]? := by
  unfold genericsContent
  induction h generalizing i with
  | nil => simp
  | cons ho _ ih =>
    cases i with
    | zero => simpa using ho
    | succ i => simpa using ih i

theorem Lists.push (h : Lists arena offsets contents) (gen : List TypeId) :
    Lists (arena ++ gen) (offsets ++ [(arena.length, gen.length)]) (contents ++ [gen]) := by
  apply rel_append
  · exact h.imp fun o c hc => slice_append gen hc
  · exact .cons (slice_end arena gen) .nil

theorem lists_sliceD (h : ∀ o ∈ offsets, o.1 + o.2 ≤ arena.length) :
    Lists arena offsets (offsets.map (sliceD arena)) := by
  induction offsets with
  | nil => exact .nil
  | cons o os ih =>
    exact .cons (slice_eq_sliceD (h o (by simp))) (ih fun p hp => h p (by simp [hp]))

structure Represents (m : Merge) (slow : Table UnboundedFunctionMetadata) (generics : Table (List TypeId)) : Prop where
  slowEntries : m.slowPathArena = slow.entries
  slowIndex : m.dedupMapSlow = slow.index
  genericsEntries : Lists m.genericsArena m.genericsOffsets generics.entries
  genericsIndex : m.dedupMapGenerics = generics.index

variable {m : Merge} {slow : Table UnboundedFunctionMetadata} {generics : Table (List TypeId)}

theorem mergeSlowPath_represents (h : Represents m slow generics) (entry : UnboundedFunctionMetadata) :
    ∃ m', mergeSlowPath m entry = some ((slow.intern entry).1, m') ∧ Represents m' (slow.intern entry).2 generics := by
  cases hl : slow.index.lookup entry with
  | some i =>
    rw [intern_of_lookup hl]
    exact ⟨m, by simp [mergeSlowPath, h.slowIndex, hl], h⟩
  | none =>
    obtain ⟨hi, he, hx⟩ := intern_of_new hl
    refine ⟨_, by simp only [mergeSlowPath, h.slowIndex, hl, hi, h.slowEntries]; rfl, ?_⟩
    exact ⟨he.symm, hx.symm, h.genericsEntries, h.genericsIndex⟩

theorem mergeGenerics_represents {localArena : List TypeId}
    (ho : o.1 + o.2 ≤ localArena.length) (h : Represents m slow generics) :
    ∃ m', mergeGenerics localArena m o = some ((generics.intern (sliceD localArena o)).1, m') ∧
      Represents m' slow (generics.intern (sliceD localArena o)).2 := by
  have hslice := slice_eq_sliceD ho
  cases hl : generics.index.lookup (sliceD localArena o) with
  | some i =>
    rw [intern_of_lookup hl]
    exact ⟨m, by simp [mergeGenerics, hslice, h.genericsIndex, hl], h⟩
  | none =>
    obtain ⟨hi, he, hx⟩ := intern_of_new hl
    have hlen : m.genericsOffsets.length = generics.entries.length := h.genericsEntries.length_eq
    refine ⟨_, by simp only [mergeGenerics, hslice, h.genericsIndex, hi, hlen, bind_eq_bind, bind_some, hl]; rfl, ?_⟩
    refine ⟨h.slowEntries, h.slowIndex, ?_, hx.symm⟩
    rw [he, ← slice_length hslice]
    exact h.genericsEntries.push _

def FunctionCheck.slowContents (c : FunctionCheck) : List UnboundedFunctionMetadata :=
  c.worker.localSlowPathArena

def FunctionCheck.genericsContents (c : FunctionCheck) : List (List TypeId) :=
  c.worker.localGenericsOffsets.map (sliceD c.worker.localGenericsArena)

theorem mergeWorker_represents {c : FunctionCheck} (hc : c.worker.InBounds) (h : Represents m slow generics) :
    ∃ m', mergeWorker m c = some (((slow.internAll c.slowContents).1, (generics.internAll c.genericsContents).1), m') ∧
      Represents m' (slow.internAll c.slowContents).2 (generics.internAll c.genericsContents).2 := by
  obtain ⟨m₁, h₁, hr₁⟩ := mapAccum_internAll (f := mergeSlowPath) (fun m t => Represents m t generics) id
    c.worker.localSlowPathArena (fun x _ m t hm => mergeSlowPath_represents hm x) m slow h
  rw [List.map_id] at h₁ hr₁
  obtain ⟨m₂, h₂, hr₂⟩ := mapAccum_internAll (f := mergeGenerics c.worker.localGenericsArena)
    (fun m t => Represents m _ t) (sliceD c.worker.localGenericsArena) c.worker.localGenericsOffsets
    (fun o ho m t hm => mergeGenerics_represents (hc.offsets o ho) hm) m₁ generics hr₁
  exact ⟨m₂, by simp [mergeWorker, h₁, h₂, FunctionCheck.slowContents, FunctionCheck.genericsContents], hr₂⟩

theorem mergeWorkers_represents {checks : List FunctionCheck} (hc : ∀ c ∈ checks, c.worker.InBounds)
    (h : Represents m slow generics) : ∃ mappings m', mapAccum mergeWorker checks m = some (mappings, m') ∧
      mappings.map Prod.fst = (slow.internLists (checks.map FunctionCheck.slowContents)).1 ∧
      mappings.map Prod.snd = (generics.internLists (checks.map FunctionCheck.genericsContents)).1 ∧
      Represents m' (slow.internLists (checks.map FunctionCheck.slowContents)).2
        (generics.internLists (checks.map FunctionCheck.genericsContents)).2 := by
  induction checks generalizing m slow generics with
  | nil => exact ⟨[], m, rfl, rfl, rfl, h⟩
  | cons c cs ih =>
    obtain ⟨m₁, h₁, hr₁⟩ := mergeWorker_represents (hc c (by simp)) h
    obtain ⟨ms, m₂, h₂, hs, hg, hr₂⟩ := ih (fun d hd => hc d (by simp [hd])) hr₁
    refine ⟨_, m₂, by simp only [mapAccum, h₁, h₂, bind_eq_bind, bind_some]; rfl, ?_, ?_, hr₂⟩
    · simp [internLists_cons, hs]
    · simp [internLists_cons, hg]

theorem mapM_slice (h : ∀ o ∈ offsets, o.1 + o.2 ≤ arena.length) :
    (offsets.mapM fun (start, len) => slice arena start len) = some (offsets.map (sliceD arena)) := by
  induction offsets with
  | nil => rfl
  | cons o os ih =>
    have ho := slice_eq_sliceD (h o (by simp))
    rw [mapM_cons, ih fun p hp => h p (by simp [hp])]
    simp [ho]

def GlobalSession.genericsContents (session : GlobalSession) : List (List TypeId) :=
  session.genericsOffsets.map (sliceD session.genericsArena)

theorem merge_represents {session : GlobalSession} (hs : session.InBounds) : ∃ m, session.merge = some m ∧
      Represents m (.ofEntries session.slowPathArena) (.ofEntries session.genericsContents) := by
  refine ⟨_, by simp only [GlobalSession.merge, mapM_slice hs, bind_eq_bind, bind_some]; rfl, ?_⟩
  exact ⟨rfl, rfl, lists_sliceD hs, rfl⟩

end Vx.Pipeline
