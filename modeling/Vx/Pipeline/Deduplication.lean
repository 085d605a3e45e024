import Vx.Lib.Interner
import Vx.Pipeline.Gid

namespace Vx.Pipeline

open Lib.Interner

def slice {α : Type} (arena : List α) (start len : ℕ) : Option (List α) :=
  if start + len ≤ arena.length then some ((arena.drop start).take len) else none

structure UnboundedFunctionMetadata where
  typeArguments : List TypeId
  lifetimeRegions : List (BitVec 32)
  traitVtables : List Word
deriving DecidableEq, Repr

structure GlobalSession where
  slowPathArena : List UnboundedFunctionMetadata
  genericsArena : List TypeId
  genericsOffsets : List (ℕ × ℕ)

structure LocalWorkerState where
  localSlowPathArena : List UnboundedFunctionMetadata
  localGenericsArena : List TypeId
  localGenericsOffsets : List (ℕ × ℕ)
  localTypeStream : List TypeId

structure FunctionCheck where
  worker : LocalWorkerState

structure Merge where
  slowPathArena : List UnboundedFunctionMetadata
  genericsArena : List TypeId
  genericsOffsets : List (ℕ × ℕ)
  dedupMapSlow : AList (fun _ : UnboundedFunctionMetadata => ℕ)
  dedupMapGenerics : AList (fun _ : List TypeId => ℕ)

structure DeduplicationResult where
  slowPathArena : List UnboundedFunctionMetadata
  genericsArena : List TypeId
  genericsOffsets : List (ℕ × ℕ)
  slowPathThreadMappings : List (List ℕ)
  genericsThreadMappings : List (List ℕ)
deriving DecidableEq, Repr

def GlobalSession.merge (session : GlobalSession) : Option Merge := do
  let gens ← session.genericsOffsets.mapM fun (start, len) => slice session.genericsArena start len
  return {
    slowPathArena := session.slowPathArena
    genericsArena := session.genericsArena
    genericsOffsets := session.genericsOffsets
    dedupMapSlow := indexFrom session.slowPathArena 0 ∅
    dedupMapGenerics := indexFrom gens 0 ∅ }

def mergeSlowPath (m : Merge) (entry : UnboundedFunctionMetadata) : Option (ℕ × Merge) :=
  match m.dedupMapSlow.lookup entry with
  | some globalIdx => some (globalIdx, m)
  | none =>
    let globalIdx := m.slowPathArena.length
    some (globalIdx, { m with
      slowPathArena := m.slowPathArena ++ [entry]
      dedupMapSlow := m.dedupMapSlow.insert entry globalIdx })

def mergeGenerics (localArena : List TypeId) (m : Merge) (offset : ℕ × ℕ) : Option (ℕ × Merge) := do
  let gen ← slice localArena offset.1 offset.2
  match m.dedupMapGenerics.lookup gen with
  | some globalIdx => return (globalIdx, m)
  | none =>
    let globalIdx := m.genericsOffsets.length
    let newStart := m.genericsArena.length
    return (globalIdx, { m with
      genericsArena := m.genericsArena ++ gen
      genericsOffsets := m.genericsOffsets ++ [(newStart, offset.2)]
      dedupMapGenerics := m.dedupMapGenerics.insert gen globalIdx })

def mergeWorker (m : Merge) (check : FunctionCheck) : Option ((List ℕ × List ℕ) × Merge) := do
  let worker := check.worker
  let (mappingSlow, m) ← mapAccum mergeSlowPath worker.localSlowPathArena m
  let (mappingGenerics, m) ←
    mapAccum (mergeGenerics worker.localGenericsArena) worker.localGenericsOffsets m
  return ((mappingSlow, mappingGenerics), m)

def deduplicationPhase (checkResults : List FunctionCheck) (session : GlobalSession) : Option DeduplicationResult := do
  let m ← session.merge
  let (mappings, m) ← mapAccum mergeWorker checkResults m
  return {
    slowPathArena := m.slowPathArena
    genericsArena := m.genericsArena
    genericsOffsets := m.genericsOffsets
    slowPathThreadMappings := mappings.map Prod.fst
    genericsThreadMappings := mappings.map Prod.snd }

end Vx.Pipeline
