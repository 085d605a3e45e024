import Mathlib

namespace Vx.Lib.Interner

open List AList

variable {α : Type} [DecidableEq α]

structure Table (α : Type) [DecidableEq α] where
  entries : List α
  index : AList (fun _ : α => ℕ)
  sound : ∀ a i, index.lookup a = some i → entries[i]? = some a
  complete : ∀ a ∈ entries, ∃ i, index.lookup a = some i

variable {entries : List α} {index : AList (fun _ : α => ℕ)}

theorem sound_insert (a : α) (hs : ∀ b i, index.lookup b = some i → entries[i]? = some b) :
    ∀ b i, (index.insert a entries.length).lookup b = some i → (entries ++ [a])[i]? = some b := by
  intro b i hb
  by_cases hab : b = a
  · subst hab
    rw [lookup_insert, Option.some.injEq] at hb
    simp [← hb]
  · rw [lookup_insert_ne hab] at hb
    have hi := hs b i hb
    rw [List.getElem?_append_left (List.getElem?_eq_some_iff.mp hi).1]
    exact hi

theorem complete_insert (a : α) (n : ℕ) (hc : ∀ b ∈ entries, ∃ i, index.lookup b = some i) :
    ∀ b ∈ entries ++ [a], ∃ i, (index.insert a n).lookup b = some i := by
  intro b hb
  by_cases hab : b = a
  · subst hab
    exact ⟨n, lookup_insert _⟩
  · rw [lookup_insert_ne hab]
    apply hc b
    simpa [hab] using hb

def Table.intern (t : Table α) (a : α) : ℕ × Table α :=
  match t.index.lookup a with
  | some i => (i, t)
  | none =>
    (t.entries.length,
      { entries := t.entries ++ [a]
        index := t.index.insert a t.entries.length
        sound := sound_insert a t.sound
        complete := complete_insert a _ t.complete })

variable {a : α} {i : ℕ} {t : Table α}

theorem intern_of_lookup (h : t.index.lookup a = some i) : t.intern a = (i, t) := by
  simp [Table.intern, h]

theorem intern_of_new (h : t.index.lookup a = none) :
    (t.intern a).1 = t.entries.length ∧ (t.intern a).2.entries = t.entries ++ [a] ∧
      (t.intern a).2.index = t.index.insert a t.entries.length := by
  simp [Table.intern, h]

variable (t : Table α)

theorem intern_lookup (a : α) : (t.intern a).2.index.lookup a = some (t.intern a).1 := by
  cases h : t.index.lookup a with
  | some i => simp [intern_of_lookup h, h]
  | none =>
    obtain ⟨hi, _, hx⟩ := intern_of_new h
    rw [hx, hi, lookup_insert]

theorem intern_entries_grow (a : α) : t.entries <+: (t.intern a).2.entries := by
  cases h : t.index.lookup a with
  | some i => simp [intern_of_lookup h]
  | none => simp [(intern_of_new h).2.1]

variable {b : α}

theorem intern_keeps_lookup (a : α) (hb : t.index.lookup b = some i) : (t.intern a).2.index.lookup b = some i := by
  cases h : t.index.lookup a with
  | some j => rwa [intern_of_lookup h]
  | none =>
    have hne : b ≠ a := by
      rintro rfl
      rw [h] at hb
      cases hb
    rw [(intern_of_new h).2.2, lookup_insert_ne hne, hb]

theorem intern_length_le (a : α) : (t.intern a).2.entries.length ≤ t.entries.length + 1 := by
  cases h : t.index.lookup a with
  | some i => simp [intern_of_lookup h]
  | none => simp [(intern_of_new h).2.1]

def Table.internAll (t : Table α) : List α → List ℕ × Table α
  | [] => ([], t)
  | a :: as =>
    let r := (t.intern a).2.internAll as
    ((t.intern a).1 :: r.1, r.2)

theorem internAll_cons (a : α) (as : List α) :
    t.internAll (a :: as) = ((t.intern a).1 :: ((t.intern a).2.internAll as).1, ((t.intern a).2.internAll as).2) := rfl

variable (as : List α)

theorem internAll_keeps_lookup (t : Table α)
    (hb : t.index.lookup b = some i) : (t.internAll as).2.index.lookup b = some i := by
  induction as generalizing t with
  | nil => exact hb
  | cons a as ih => exact ih _ (intern_keeps_lookup t a hb)

theorem internAll_entries_grow (t : Table α) : t.entries <+: (t.internAll as).2.entries := by
  induction as generalizing t with
  | nil => exact prefix_refl _
  | cons a as ih => exact (intern_entries_grow t a).trans (ih _)

theorem internAll_length_le (t : Table α) : (t.internAll as).2.entries.length ≤ t.entries.length + as.length := by
  induction as generalizing t with
  | nil => simp [Table.internAll]
  | cons a as ih =>
    have h := ih (t.intern a).2
    have ha := intern_length_le t a
    simp only [internAll_cons, length_cons]
    omega

theorem internAll_lookup (t : Table α) :
    List.Forall₂ (fun a i => (t.internAll as).2.index.lookup a = some i) as (t.internAll as).1 := by
  induction as generalizing t with
  | nil => exact .nil
  | cons a as ih =>
    exact .cons (internAll_keeps_lookup as _ (intern_lookup t a)) (ih _)

theorem lookup_eq_iff {j : ℕ} (ha : t.index.lookup a = some i) (hb : t.index.lookup b = some j) : i = j ↔ a = b := by
  constructor
  · rintro rfl
    have hi := t.sound a i ha
    rw [t.sound b i hb] at hi
    exact (Option.some.inj hi).symm
  · rintro rfl
    rw [ha] at hb
    exact Option.some.inj hb

def indexFrom : List α → ℕ → AList (fun _ : α => ℕ) → AList (fun _ : α => ℕ)
  | [], _, m => m
  | a :: as, i, m => indexFrom as (i + 1) (m.insert a i)

theorem indexFrom_sound (done as : List α) (m : AList (fun _ : α => ℕ))
    (hm : ∀ a i, m.lookup a = some i → done[i]? = some a) :
    ∀ a i, (indexFrom as done.length m).lookup a = some i → (done ++ as)[i]? = some a := by
  induction as generalizing done m with
  | nil => simpa [indexFrom] using hm
  | cons b as ih =>
    have h := ih (done ++ [b]) (m.insert b done.length) (sound_insert b hm)
    simpa [indexFrom] using h

theorem indexFrom_complete (done as : List α) (m : AList (fun _ : α => ℕ)) (hm : ∀ a ∈ done, ∃ i, m.lookup a = some i) :
    ∀ a ∈ done ++ as, ∃ i, (indexFrom as done.length m).lookup a = some i := by
  induction as generalizing done m with
  | nil => simpa [indexFrom] using hm
  | cons b as ih =>
    have h := ih (done ++ [b]) (m.insert b done.length) (complete_insert b _ hm)
    simpa [indexFrom] using h

def Table.ofEntries (as : List α) : Table α where
  entries := as
  index := indexFrom as 0 ∅
  sound := by simpa using indexFrom_sound [] as ∅ (by simp)
  complete := by simpa using indexFrom_complete [] as ∅ (by simp)

def Table.internLists (t : Table α) : List (List α) → List (List ℕ) × Table α
  | [] => ([], t)
  | as :: rest =>
    let r := (t.internAll as).2.internLists rest
    ((t.internAll as).1 :: r.1, r.2)

theorem internLists_cons (rest : List (List α)) :
    t.internLists (as :: rest) = ((t.internAll as).1 :: ((t.internAll as).2.internLists rest).1,
      ((t.internAll as).2.internLists rest).2) := rfl

variable (ls : List (List α))

theorem internLists_keeps_lookup (t : Table α)
    (hb : t.index.lookup b = some i) : (t.internLists ls).2.index.lookup b = some i := by
  induction ls generalizing t with
  | nil => exact hb
  | cons as rest ih => exact ih _ (internAll_keeps_lookup as t hb)

theorem internLists_entries_grow (t : Table α) : t.entries <+: (t.internLists ls).2.entries := by
  induction ls generalizing t with
  | nil => exact prefix_refl _
  | cons as rest ih => exact (internAll_entries_grow as t).trans (ih _)

theorem internLists_length_le (t : Table α) :
    (t.internLists ls).2.entries.length ≤ t.entries.length + (ls.map List.length).sum := by
  induction ls generalizing t with
  | nil => simp [Table.internLists]
  | cons as rest ih =>
    have h := ih (t.internAll as).2
    have ha := internAll_length_le as t
    simp only [internLists_cons, map_cons, sum_cons]
    omega

theorem internLists_lookup (t : Table α) :
    List.Forall₂ (List.Forall₂ fun a i => (t.internLists ls).2.index.lookup a = some i) ls (t.internLists ls).1 := by
  induction ls generalizing t with
  | nil => exact .nil
  | cons as rest ih =>
    refine .cons ?_ (ih _)
    exact (internAll_lookup as t).imp fun _ _ h => internLists_keeps_lookup rest _ h

def mapAccum {σ ι β : Type} (f : σ → ι → Option (β × σ)) : List ι → σ → Option (List β × σ)
  | [], s => some ([], s)
  | x :: xs, s => do
    let (b, s) ← f s x
    let (bs, s) ← mapAccum f xs s
    return (b :: bs, s)

theorem mapAccum_internAll {σ ι : Type} {f : σ → ι → Option (ℕ × σ)} (rep : σ → Table α → Prop)
    (content : ι → α) (xs : List ι) (hf : ∀ x ∈ xs, ∀ s t, rep s t → ∃ s', f s x = some ((t.intern (content x)).1, s') ∧
      rep s' (t.intern (content x)).2) :
    ∀ s t, rep s t → ∃ s', mapAccum f xs s = some ((t.internAll (xs.map content)).1, s') ∧
      rep s' (t.internAll (xs.map content)).2 := by
  induction xs with
  | nil => exact fun s t h => ⟨s, rfl, h⟩
  | cons x xs ih =>
    intro s t h
    obtain ⟨s₁, hx, h₁⟩ := hf x (by simp) s t h
    obtain ⟨s₂, hxs, h₂⟩ := ih (fun y hy => hf y (by simp [hy])) s₁ _ h₁
    exact ⟨s₂, by simp [mapAccum, hx, hxs, internAll_cons], h₂⟩

end Vx.Lib.Interner
