import Vx.Pipeline.MergedTables

namespace Vx.Pipeline

open List Option

def chunks {α : Type} (n : ℕ) : ℕ → List α → List (List α)
  | 0, _ => []
  | _ + 1, [] => []
  | rounds + 1, x :: xs => (x :: xs).take n :: chunks n rounds ((x :: xs).drop n)

theorem chunks_flatten {α : Type} {n : ℕ} (hn : 0 < n) (rounds : ℕ) (xs : List α)
    (h : xs.length ≤ rounds) : (chunks n rounds xs).flatten = xs := by
  induction rounds generalizing xs with
  | zero => simp [chunks, eq_nil_of_length_eq_zero (Nat.le_zero.mp h)]
  | succ rounds ih =>
    cases xs with
    | nil => rfl
    | cons x xs =>
      have hd : ((x :: xs).drop n).length ≤ rounds := by
        simp only [length_drop, length_cons] at h ⊢
        omega
      rw [chunks, flatten_cons, ih _ hd, take_append_drop]

def patchGid (mappingSlow mappingGenerics : List ℕ) (gid : TypeId) : Option TypeId :=
  match gid.classifyWord2 with
  | .index index arena .localScope => do
    let globalIndex ← match arena with
      | .generics => mappingGenerics[index.toNat]?
      | .slowMeta => mappingSlow[index.toNat]?
    return gid.setArenaIndex (BitVec.ofNat 64 globalIndex) arena .globalScope
  | _ => some gid

def patchStream (slowMappings genericsMappings : List (List ℕ)) (s : ℕ × List TypeId) : Option (ℕ × List TypeId) := do
  let mappingSlow ← slowMappings[s.1]?
  let mappingGenerics ← genericsMappings[s.1]?
  let patched ← (chunks 8 s.2.length s.2).mapM fun chunk => chunk.mapM (patchGid mappingSlow mappingGenerics)
  return (s.1, patched.flatten)

def extractTypeStreams (checkResults : List FunctionCheck) : List (ℕ × List TypeId) :=
  checkResults.mapIdx fun threadIdx check => (threadIdx, check.worker.localTypeStream)

def simdPatchPhase (allTypeStreams : List (ℕ × List TypeId)) (slowMappings genericsMappings : List (List ℕ)) :
    Option (List (ℕ × List TypeId)) :=
  allTypeStreams.mapM (patchStream slowMappings genericsMappings)

theorem mapM_chunks {α β : Type} (f : α → Option β) (cs : List (List α)) {ys : List β}
    (h : cs.flatten.mapM f = some ys) : ∃ yss, cs.mapM (fun c => c.mapM f) = some yss ∧ yss.flatten = ys := by
  induction cs generalizing ys with
  | nil =>
    refine ⟨[], rfl, ?_⟩
    simpa using h
  | cons c cs ih =>
    rw [flatten_cons, mapM_append] at h
    simp only [bind_eq_bind, bind_eq_some_iff, Option.pure_def, Option.some.injEq] at h
    obtain ⟨y₁, h₁, y₂, h₂, rfl⟩ := h
    obtain ⟨yss, hc, hf⟩ := ih h₂
    exact ⟨y₁ :: yss, by simp [h₁, hc], by simp [hf]⟩

theorem mapM_forall₂ {α β : Type} {f : α → Option β} {r : α → β → Prop} (xs : List α)
    (h : ∀ x ∈ xs, ∃ y, f x = some y ∧ r x y) : ∃ ys, xs.mapM f = some ys ∧ List.Forall₂ r xs ys := by
  induction xs with
  | nil => exact ⟨[], rfl, .nil⟩
  | cons x xs ih =>
    obtain ⟨y, hy, hr⟩ := h x (by simp)
    obtain ⟨ys, hys, hrs⟩ := ih fun z hz => h z (by simp [hz])
    exact ⟨y :: ys, by simp [hy, hys], .cons hr hrs⟩

theorem patchStream_forall₂ {slowMappings genericsMappings : List (List ℕ)} {s : ℕ × List TypeId}
    {slow generics : List ℕ} {r : TypeId → TypeId → Prop} (hslow : slowMappings[s.1]? = some slow)
    (hgenerics : genericsMappings[s.1]? = some generics)
    (h : ∀ gid ∈ s.2, ∃ gid', patchGid slow generics gid = some gid' ∧ r gid gid') :
    ∃ s', patchStream slowMappings genericsMappings s = some (s.1, s') ∧ List.Forall₂ r s.2 s' := by
  obtain ⟨ys, hys, hr⟩ := mapM_forall₂ s.2 h
  obtain ⟨yss, hc, hf⟩ := mapM_chunks (patchGid slow generics) (chunks 8 s.2.length s.2)
    (by rwa [chunks_flatten (by omega) _ _ (le_refl _)])
  exact ⟨ys, by simp [patchStream, hslow, hgenerics, hc, hf], hr⟩

end Vx.Pipeline
