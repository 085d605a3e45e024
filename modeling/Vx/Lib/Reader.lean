import Mathlib

namespace Vx.Lib.Reader

open List BitVec

abbrev Bytes (count : ℕ) := { bytes : List UInt8 // bytes.length = count }

/-- A program that reads a buffer of bytes from the left. It can reserve a table for elements of a kind of `S`
before it reads them, and it can run out of stack. -/
inductive Program (S α : Type)
  | done (value : α)
  | fail (message : String)
  | take (count : ℕ) (short : ℕ → String) (next : Bytes count → Program S α)
  | reserve (kind : S) (count : ℕ) (next : Program S α)
  | exhausted

namespace Program

variable {S α β : Type}

def bind : Program S α → (α → Program S β) → Program S β
  | .done value, f => f value
  | .fail message, _ => .fail message
  | .take count short next, f => .take count short fun bytes => (next bytes).bind f
  | .reserve kind count next, f => .reserve kind count (next.bind f)
  | .exhausted, _ => .exhausted

instance : Monad (Program S) where
  pure := .done
  bind := bind

def many (count : ℕ) (item : Program S α) : Program S (List α) :=
  match count with
  | 0 => pure []
  | count + 1 => do
    let x ← item
    let xs ← many count item
    return x :: xs

end Program

inductive Stop
  | err (message : String)
  | capacityOverflow
  | stackOverflow
deriving DecidableEq, Repr

class Encoded (S : Type) where
  least : S → ℕ
  least_pos : ∀ kind, 0 < least kind

structure Reservation (S : Type) where
  kind : S
  count : ℕ
  remaining : ℕ

def Reservation.Supplied {S : Type} [Encoded S] (r : Reservation S) : Prop :=
  r.count * Encoded.least r.kind ≤ r.remaining

instance {S : Type} [Encoded S] (r : Reservation S) : Decidable r.Supplied :=
  inferInstanceAs (Decidable (_ ≤ _))

structure Cursor (S : Type) where
  pos : ℕ
  rest : List UInt8
  reserved : List (Reservation S)

/-- What a run has: the size of an element of each kind in memory and the most bytes that a table can have. -/
structure Machine (S : Type) where
  size : S → ℕ
  allocation : ℕ

variable {S α β : Type}

def run (m : Machine S) : Program S α → Cursor S → Except Stop α × Cursor S
  | .done value, c => (.ok value, c)
  | .fail message, c => (.error (.err message), c)
  | .take count short next, c =>
    if h : count ≤ c.rest.length then
      run m (next ⟨c.rest.take count, by simp [h]⟩) ⟨c.pos + count, c.rest.drop count, c.reserved⟩
    else (.error (.err (short c.pos)), c)
  | .reserve kind count next, c =>
    if m.allocation < count * m.size kind then (.error .capacityOverflow, c)
    else run m next ⟨c.pos, c.rest, ⟨kind, count, c.rest.length⟩ :: c.reserved⟩
  | .exhausted, c => (.error .stackOverflow, c)

theorem run_bind (m : Machine S) (p : Program S α) (f : α → Program S β) (c : Cursor S) :
    run m (p >>= f) c = match run m p c with
      | (.ok value, c') => run m (f value) c'
      | (.error stop, c') => (.error stop, c') := by
  change run m (p.bind f) c = _
  induction p generalizing c with
  | done value => rfl
  | fail message => rfl
  | exhausted => rfl
  | take count short next ih =>
    simp only [Program.bind, run]
    split
    · exact ih _ _
    · rfl
  | reserve kind count next ih =>
    simp only [Program.bind, run]
    split
    · rfl
    · exact ih _

def Yields (m : Machine S) (p : Program S α) (bytes : List UInt8) (value : α) : Prop :=
  ∀ pos rest reserved, ∃ reserved',
    run m p ⟨pos, bytes ++ rest, reserved⟩ = (.ok value, ⟨pos + bytes.length, rest, reserved'⟩)

def Fails (m : Machine S) (p : Program S α) (bytes : List UInt8) : Prop :=
  ∀ pos rest reserved, ∃ message c, run m p ⟨pos, bytes ++ rest, reserved⟩ = (.error (.err message), c)

section
variable {m : Machine S}

theorem Yields.done (value : α) : Yields m (pure value) [] value := fun _ _ reserved => ⟨reserved, rfl⟩

variable {p : Program S α} {bytes : List UInt8} {f : α → Program S β} {bytes' : List UInt8}

theorem Yields.bind {x : α} {y : β}
    (h : Yields m p bytes x) (h' : Yields m (f x) bytes' y) : Yields m (p >>= f) (bytes ++ bytes') y := by
  intro pos rest reserved
  obtain ⟨mid, hmid⟩ := h pos (bytes' ++ rest) reserved
  obtain ⟨last, hlast⟩ := h' (pos + bytes.length) rest mid
  refine ⟨last, ?_⟩
  rw [run_bind, List.append_assoc, hmid]
  simp only [hlast, length_append, Nat.add_assoc]

theorem Yields.take {count : ℕ} (short : ℕ → String) (bytes : Bytes count) :
    Yields m (.take count short .done) bytes.1 bytes := by
  obtain ⟨bytes, rfl⟩ := bytes
  intro pos rest reserved
  exact ⟨reserved, by simp [run]⟩

theorem Yields.reserve {kind : S} {count : ℕ} (h : count * m.size kind ≤ m.allocation) : Yields m (.reserve kind count (.done ())) [] () := by
  intro pos rest reserved
  refine ⟨⟨kind, count, rest.length⟩ :: reserved, ?_⟩
  simp only [run, nil_append, length_nil, Nat.add_zero]
  rw [if_neg (Nat.not_lt.mpr h)]

variable {item : Program S α}

theorem Yields.many {γ : Type} {xs : List γ} {encode : γ → List UInt8} {value : γ → α}
    (h : ∀ x ∈ xs, Yields m item (encode x) (value x)) :
    Yields m (Program.many xs.length item) (xs.flatMap encode) (xs.map value) := by
  induction xs with
  | nil => exact .done []
  | cons x xs ih =>
    have hrest := ih fun y hy => h y (mem_cons_of_mem _ hy)
    have hlast := hrest.bind (f := fun ys => pure (value x :: ys)) (.done (value x :: xs.map value))
    rw [append_nil] at hlast
    rw [flatMap_cons, map_cons]
    exact (h x (by simp)).bind hlast

theorem Fails.bind (h : Fails m p bytes) (f : α → Program S β)
    (bytes' : List UInt8) : Fails m (p >>= f) (bytes ++ bytes') := by
  intro pos rest reserved
  obtain ⟨message, c, hrun⟩ := h pos (bytes' ++ rest) reserved
  exact ⟨message, c, by rw [run_bind, List.append_assoc, hrun]⟩

theorem Yields.bind_fails {x : α}
    (h : Yields m p bytes x) (h' : Fails m (f x) bytes') : Fails m (p >>= f) (bytes ++ bytes') := by
  intro pos rest reserved
  obtain ⟨mid, hmid⟩ := h pos (bytes' ++ rest) reserved
  obtain ⟨message, c, hrun⟩ := h' (pos + bytes.length) rest mid
  exact ⟨message, c, by rw [run_bind, List.append_assoc, hmid]; exact hrun⟩

theorem Fails.fail (message : String) (bytes : List UInt8) : Fails m (.fail message : Program S α) bytes :=
  fun pos rest reserved => ⟨message, ⟨pos, bytes ++ rest, reserved⟩, rfl⟩

theorem Fails.many {γ : Type} {xs : List γ} {encode : γ → List UInt8} {value : γ → α}
    (h : ∀ x ∈ xs, Yields m item (encode x) (value x) ∨ Fails m item (encode x))
    (hfails : ∃ x ∈ xs, Fails m item (encode x)) : Fails m (Program.many xs.length item) (xs.flatMap encode) := by
  induction xs with
  | nil => simp at hfails
  | cons x xs ih =>
    rw [flatMap_cons]
    by_cases hx : Fails m item (encode x)
    · exact hx.bind _ _
    have hyields := (h x (by simp)).resolve_right hx
    obtain ⟨y, hy, hfails⟩ := hfails
    have hmem : y ∈ xs := by
      rcases List.mem_cons.mp hy with rfl | hy
      · exact absurd hfails hx
      · exact hy
    have htail := ih (fun y hy => h y (mem_cons_of_mem _ hy)) ⟨y, hmem, hfails⟩
    have hlast := htail.bind (fun ys => (pure (value x :: ys) : Program S (List α))) []
    rw [append_nil] at hlast
    exact hyields.bind_fails hlast

end

theorem run_append (m : Machine S) (p : Program S α) (pos : ℕ)
    (bytes more : List UInt8) (reserved reserved₂ : List (Reservation S)) :
    (∃ message c, run m p ⟨pos, bytes, reserved⟩ = (.error (.err message), c)) ∨
      ∃ result c reserved', run m p ⟨pos, bytes, reserved⟩ = (result, c) ∧
        run m p ⟨pos, bytes ++ more, reserved₂⟩ = (result, ⟨c.pos, c.rest ++ more, reserved'⟩) := by
  induction p generalizing pos bytes reserved reserved₂ with
  | done value | exhausted => exact .inr ⟨_, _, _, rfl, rfl⟩
  | fail message => exact .inl ⟨_, _, rfl⟩
  | take count short next ih =>
    by_cases h : count ≤ bytes.length
    · have hlong : count ≤ (bytes ++ more).length := by simp; omega
      simp only [run, h, hlong, dif_pos, take_append_of_le_length h, drop_append_of_le_length h]
      exact ih ..
    · exact .inl ⟨short pos, ⟨pos, bytes, reserved⟩, by simp only [run, h, dif_neg, not_false_eq_true]⟩
  | reserve kind count next ih =>
    by_cases h : m.allocation < count * m.size kind
    · refine .inr ⟨.error .capacityOverflow, ⟨pos, bytes, reserved⟩, reserved₂, ?_, ?_⟩ <;> simp [run, h]
    · simp only [run, h, if_false]
      exact ih ..

def Clean [Encoded S] (outcome : Except Stop α × Cursor S) : Prop :=
  ((∃ value, outcome.1 = .ok value) ∨ ∃ message, outcome.1 = .error (.err message)) ∧
    ∀ r ∈ outcome.2.reserved, r.Supplied

def isText (bytes : List UInt8) : Bool := (String.fromUTF8? ⟨bytes.toArray⟩).isSome

def wordBytes (w : BitVec 64) : List UInt8 :=
  (List.range 8).map fun i => UInt8.ofNat (w.toNat / 256 ^ i)

def bytesWord (bytes : List UInt8) : BitVec 64 :=
  BitVec.ofNat 64 (bytes.foldr (fun b acc => b.toNat + 256 * acc) 0)

theorem length_wordBytes (w : BitVec 64) : (wordBytes w).length = 8 := by
  simp [wordBytes]

theorem bytesWord_wordBytes (w : BitVec 64) : bytesWord (wordBytes w) = w := by
  apply eq_of_toNat_eq
  have hw := w.isLt
  simp only [bytesWord, wordBytes, range_succ, range_zero, nil_append, map_cons,
    map_nil, List.cons_append, foldr_cons, foldr_nil, toNat_ofNat, UInt8.toNat_ofNat']
  omega

end Vx.Lib.Reader
