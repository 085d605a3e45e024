import Vx.Lib.Reader

namespace Vx.Lib.Reader

/-- How the parts of an input lie one after the other. `deep` is a part that nests too deep, and a table begins with the
count of its items. -/
inductive Format (S : Type)
  | empty
  | bad
  | deep
  | literal (bytes : List UInt8)
  | word (allowed : BitVec 64 → Bool)
  | text
  | tagged (cases : ℕ → Format S)
  | table (kind : Option S) (item : Format S)
  | numbered (kind : S) (item : Format S)
  | seq (first second : Format S)

/-- What lies in an input up to the first part that is not well formed: the rest after it when there is none, the counts
that size a table, each with the number of bytes after it, and whether the input nests too deep. -/
structure Scan (S : Type) where
  rest : Option (List UInt8)
  counts : List (Reservation S)
  deep : Bool

namespace Scan

variable {S : Type}

def malformed : Scan S := ⟨none, [], false⟩

def past (rest : List UInt8) : Scan S := ⟨some rest, [], false⟩

def andThen (first : Scan S) (second : List UInt8 → Scan S) : Scan S :=
  match first.rest with
  | none => first
  | some rest => ⟨(second rest).rest, first.counts ++ (second rest).counts, first.deep || (second rest).deep⟩

def times (item : List UInt8 → Scan S) : ℕ → List UInt8 → Scan S
  | 0, bytes => past bytes
  | count + 1, bytes => (item bytes).andThen (times item count)

def word (bytes : List UInt8) (next : BitVec 64 → List UInt8 → Scan S) : Scan S :=
  if 8 ≤ bytes.length then next (bytesWord (bytes.take 8)) (bytes.drop 8) else malformed

/-- The items with a number after each, which is below `count` and not the one of another item. -/
def numbered (item : List UInt8 → Scan S) (count : ℕ) : (remaining : ℕ) → (seen : List ℕ) → List UInt8 → Scan S
  | 0, _, bytes => past bytes
  | remaining + 1, seen, bytes => (item bytes).andThen fun bytes => word bytes fun number rest =>
    if number.toNat < count ∧ number.toNat ∉ seen then numbered item count remaining (number.toNat :: seen) rest
    else malformed

def counted (kind : S) (count : ℕ) (bytes : List UInt8) (items : Scan S) : Scan S :=
  { items with counts := ⟨kind, count, bytes.length⟩ :: items.counts }

end Scan

variable {S α β : Type}

def Format.scan : Format S → List UInt8 → Scan S
  | .empty, bytes => .past bytes
  | .bad, _ => .malformed
  | .deep, _ => ⟨none, [], true⟩
  | .literal expected, bytes =>
    if bytes.take expected.length = expected then .past (bytes.drop expected.length) else .malformed
  | .word allowed, bytes => .word bytes fun w rest => if allowed w then .past rest else .malformed
  | .text, bytes => .word bytes fun count rest =>
    if count.toNat ≤ rest.length ∧ isText (rest.take count.toNat) then .past (rest.drop count.toNat) else .malformed
  | .tagged _, [] => .malformed
  | .tagged cases, tag :: rest => (cases tag.toNat).scan rest
  | .table none item, bytes => .word bytes fun count rest => .times item.scan count.toNat rest
  | .table (some kind) item, bytes => .word bytes fun count rest =>
    .counted kind count.toNat rest (.times item.scan count.toNat rest)
  | .numbered kind item, bytes => .word bytes fun count rest =>
    .counted kind count.toNat rest (.numbered item.scan count.toNat count.toNat [] rest)
  | .seq first second, bytes => (first.scan bytes).andThen second.scan

def Format.all : List (Format S) → Format S
  | [] => .empty
  | part :: parts => .seq part (all parts)

variable [Encoded S]

/-- A run ends as the scan of the input says. -/
def Agrees (c : Cursor S) (scan : Scan S) : Except Stop α × Cursor S → Prop
  | (.ok _, c') => scan.rest = some c'.rest ∧ scan.deep = false ∧ c'.reserved = scan.counts.reverse ++ c.reserved
  | (.error (.err _), c') => scan.rest = none ∧ scan.deep = false ∧ c'.reserved = scan.counts.reverse ++ c.reserved
  | (.error .capacityOverflow, _) => ∃ r ∈ scan.counts, ¬ r.Supplied
  | (.error .stackOverflow, _) => scan.deep = true

def Follows (m : Machine S) (p : Program S α) (scan : List UInt8 → Scan S) : Prop :=
  ∀ c : Cursor S, (∀ kind, c.rest.length * m.size kind ≤ m.allocation) → Agrees c (scan c.rest) (run m p c)

variable {m : Machine S} {p : Program S α} {q : α → Program S β} {scan scan' : List UInt8 → Scan S}

omit [Encoded S] in
theorem length_rest_le (p : Program S α) (c : Cursor S) : (run m p c).2.rest.length ≤ c.rest.length := by
  induction p generalizing c with
  | done value | fail message | exhausted => exact le_rfl
  | take count short next ih =>
    simp only [run]
    split
    · exact (ih _ _).trans (by simp)
    · exact le_rfl
  | reserve kind count next ih =>
    simp only [run]
    split
    · exact le_rfl
    · exact ih _

theorem Follows.done (value : α) : Follows m (pure value) .past := fun _ _ => ⟨rfl, rfl, rfl⟩

theorem Follows.fail (message : String) : Follows m (.fail message : Program S α) fun _ => .malformed :=
  fun _ _ => ⟨rfl, rfl, rfl⟩

theorem Follows.bind (hp : Follows m p scan) (hq : ∀ x, Follows m (q x) scan') :
    Follows m (p >>= q) fun bytes => (scan bytes).andThen scan' := by
  intro c hmemory
  have hfirst := hp c hmemory
  have hle := length_rest_le (m := m) p c
  rw [run_bind]
  generalize run m p c = outcome at hfirst hle
  obtain ⟨result, c'⟩ := outcome
  match result with
  | .ok x =>
    obtain ⟨hrest, hdeep, hreserved⟩ := hfirst
    -- The first part only drops bytes, so what is left of the input fits the memory as well.
    have hsecond := hq x c' fun kind => (Nat.mul_le_mul_right _ hle).trans (hmemory kind)
    simp only [Scan.andThen, hrest, hdeep, Bool.false_or]
    generalize run m (q x) c' = outcome at hsecond
    obtain ⟨result, c''⟩ := outcome
    match result with
    | .ok _ | .error (.err _) =>
      refine ⟨hsecond.1, hsecond.2.1, ?_⟩
      rw [hsecond.2.2, hreserved, List.reverse_append, List.append_assoc]
    | .error .capacityOverflow =>
      obtain ⟨r, hr, hsupplied⟩ := hsecond
      exact ⟨r, List.mem_append_right _ hr, hsupplied⟩
    | .error .stackOverflow => exact hsecond
  | .error (.err _) =>
    simp only [Scan.andThen, hfirst.1]
    exact hfirst
  | .error .capacityOverflow =>
    obtain ⟨r, hr, hsupplied⟩ := hfirst
    simp only [Scan.andThen]
    split
    · exact ⟨r, hr, hsupplied⟩
    · exact ⟨r, List.mem_append_left _ hr, hsupplied⟩
  | .error .stackOverflow =>
    have hdeep : (scan c.rest).deep = true := hfirst
    simp only [Scan.andThen]
    split
    · exact hdeep
    · simp [Agrees, hdeep]

omit [Encoded S] in
@[simp]
theorem Scan.andThen_past (s : Scan S) : s.andThen .past = s := by
  unfold Scan.andThen
  split
  · rfl
  next hrest => simp [Scan.past, ← hrest]

theorem Follows.map (hp : Follows m p scan) (f : α → β) : Follows m (p >>= fun x => pure (f x)) scan := by
  have h := hp.bind fun x => Follows.done (f x)
  simpa only [Scan.andThen_past] using h

theorem Follows.many (hp : Follows m p scan) (count : ℕ) : Follows m (Program.many count p) (Scan.times scan count) := by
  induction count with
  | zero => exact .done []
  | succ count ih => exact hp.bind fun x => ih.map fun xs => x :: xs

theorem Follows.exhausted : Follows m (.exhausted : Program S α) fun _ => ⟨none, [], true⟩ := fun _ _ => rfl

theorem Follows.take {count : ℕ} {short : ℕ → String} {next : Bytes count → Program S α}
    {scan : Bytes count → List UInt8 → Scan S} (h : ∀ bytes, Follows m (next bytes) (scan bytes)) :
    Follows m (.take count short next) fun bytes =>
      if hle : count ≤ bytes.length then scan ⟨bytes.take count, by simp [hle]⟩ (bytes.drop count) else .malformed := by
  intro c hmemory
  simp only [run]
  split
  · refine h _ ⟨c.pos + count, c.rest.drop count, c.reserved⟩ fun kind => ?_
    exact (Nat.mul_le_mul_right _ (by simp)).trans (hmemory kind)
  · exact ⟨rfl, rfl, rfl⟩

theorem Follows.literal {expected : List UInt8} {count : ℕ} {short : ℕ → String} {next : Bytes count → Program S α}
    (hcount : expected.length = count) (h : ∀ bytes, bytes.1 = expected → Follows m (next bytes) scan)
    (hfail : ∀ bytes, bytes.1 ≠ expected → Follows m (next bytes) fun _ => .malformed) :
    Follows m (.take count short next) fun bytes => ((Format.literal expected).scan bytes).andThen scan := by
  subst hcount
  have htake : Follows m (.take expected.length short next) _ := Follows.take fun bytes =>
    show Follows m (next bytes) (if bytes.1 = expected then scan else fun _ => .malformed) by
      split
      next heq => exact h bytes heq
      next hne => exact hfail bytes hne
  intro c hmemory
  have hc := htake c hmemory
  simp only [Format.scan]
  by_cases heq : c.rest.take expected.length = expected
  · have hle : expected.length ≤ c.rest.length := by
      have := congrArg List.length heq
      simp at this
      omega
    simpa [heq, hle, Scan.andThen, Scan.past] using hc
  · simpa [heq, Scan.andThen, Scan.malformed] using hc

theorem Follows.word {short : ℕ → String} {next : BitVec 64 → Program S α} {scan : BitVec 64 → List UInt8 → Scan S}
    (h : ∀ w, Follows m (next w) (scan w)) :
    Follows m (.take 8 short fun bytes => next (bytesWord bytes.1)) fun bytes => .word bytes scan :=
  .take fun bytes => h (bytesWord bytes.1)

theorem Follows.reserve {kind : S} {count : ℕ} (hp : Follows m p scan) :
    Follows m (.reserve kind count p) fun bytes => .counted kind count bytes (scan bytes) := by
  intro c hmemory
  simp only [run]
  split
  next hlarge =>
    -- A supplied count is at most the number of bytes left, and as many items as that fit the memory.
    refine ⟨⟨kind, count, c.rest.length⟩, List.mem_cons_self, fun hsupplied => ?_⟩
    have hle : count ≤ c.rest.length :=
      (Nat.le_mul_of_pos_right _ (Encoded.least_pos kind)).trans (show count * Encoded.least kind ≤ c.rest.length from hsupplied)
    have hfits := (Nat.mul_le_mul_right (m.size kind) hle).trans (hmemory kind)
    omega
  next =>
    have h := hp ⟨c.pos, c.rest, ⟨kind, count, c.rest.length⟩ :: c.reserved⟩ hmemory
    generalize run m p ⟨c.pos, c.rest, ⟨kind, count, c.rest.length⟩ :: c.reserved⟩ = outcome at h
    obtain ⟨result, c'⟩ := outcome
    rcases result with (_ | _ | _) | _
    · exact ⟨h.1, h.2.1, by simp [Scan.counted, h.2.2]⟩
    · obtain ⟨r, hr, hsupplied⟩ := h
      exact ⟨r, List.mem_cons_of_mem _ hr, hsupplied⟩
    · exact h
    · exact ⟨h.1, h.2.1, by simp [Scan.counted, h.2.2]⟩

/-- A run is clean exactly when the rest of the input supplies each count, and the input does not nest too deep. -/
theorem Follows.clean_iff (hp : Follows m p scan) {bytes : List UInt8}
    (hmemory : ∀ kind, bytes.length * m.size kind ≤ m.allocation) :
    Clean (run m p ⟨0, bytes, []⟩) ↔ (∀ r ∈ (scan bytes).counts, r.Supplied) ∧ (scan bytes).deep = false := by
  have h := hp ⟨0, bytes, []⟩ hmemory
  generalize run m p ⟨0, bytes, []⟩ = outcome at h
  obtain ⟨result, c'⟩ := outcome
  match result with
  | .ok _ | .error (.err _) =>
    obtain ⟨-, hdeep, hreserved⟩ := h
    simp [Clean, hdeep, hreserved]
  | .error .capacityOverflow =>
    obtain ⟨r, hr, hsupplied⟩ := h
    refine iff_of_false (fun hclean => ?_) fun hall => hsupplied (hall.1 r hr)
    rcases hclean.1 with ⟨_, hend⟩ | ⟨_, hend⟩ <;> cases hend
  | .error .stackOverflow =>
    have hdeep : (scan bytes).deep = true := h
    refine iff_of_false (fun hclean => ?_) fun hall => by simp [hdeep] at hall
    rcases hclean.1 with ⟨_, hend⟩ | ⟨_, hend⟩ <;> cases hend

end Vx.Lib.Reader
