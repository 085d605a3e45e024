import Mathlib

/-!
A recursion that keeps a table of its results, and that answers a question which it is still answering with a fixed
result. Where no question comes back to itself, the results are those of the plain recursion, whatever the table holds.
The recursion ends where no chain of calls is endless.
-/

namespace Vx.Lib.Memo

open Function (update update_self update_of_ne)
open Relation (TransGen ReflTransGen)

variable {Q R S α β : Type}

inductive Ask (Q R α : Type)
  | done (a : α)
  | ask (q : Q) (next : R → Ask Q R α)

namespace Ask

def bind (f : α → Ask Q R β) : Ask Q R α → Ask Q R β
  | done a => f a
  | ask q next => ask q fun r => (next r).bind f

instance : Monad (Ask Q R) where
  pure := done
  bind t f := t.bind f

def eval (answer : Q → Option R) : Ask Q R α → Option α
  | done a => some a
  | ask q next => (answer q).bind fun r => (next r).eval answer

def run (call : Q → S → Option (R × S)) : Ask Q R α → S → Option (α × S)
  | done a, s => some (a, s)
  | ask q next, s => (call q s).bind fun x => (next x.1).run call x.2

inductive May : Ask Q R α → Q → Prop
  | here {q : Q} {next : R → Ask Q R α} : May (ask q next) q
  | later {q q' : Q} {next : R → Ask Q R α} {r : R} (h : May (next r) q') : May (ask q next) q'

/-- The results along answers of which each is right. -/
inductive Gives (right : Q → R → Prop) : Ask Q R α → α → Prop
  | done {a : α} : Gives right (done a) a
  | ask {q : Q} {next : R → Ask Q R α} {r : R} {a : α} (hr : right q r) (h : Gives right (next r) a) :
      Gives right (ask q next) a

/-- The questions that are asked where the answers before are right. -/
inductive Asks (right : Q → R → Prop) : Ask Q R α → Q → Prop
  | here {q : Q} {next : R → Ask Q R α} : Asks right (ask q next) q
  | later {q q' : Q} {next : R → Ask Q R α} {r : R} (hr : right q r) (h : Asks right (next r) q') :
      Asks right (ask q next) q'

theorem eval_bind {answer : Q → Option R} (f : α → Ask Q R β) (t : Ask Q R α) :
    (t.bind f).eval answer = (t.eval answer).bind fun a => (f a).eval answer := by
  induction t with
  | done a => rfl
  | ask q next ih =>
    rw [bind, eval, eval, Option.bind_assoc]
    exact congrArg _ (funext ih)

variable {t : Ask Q R α}

theorem eval_mono {answer answer' : Q → Option R} (h : ∀ q r, answer q = some r → answer' q = some r)
    {a : α} (ht : t.eval answer = some a) : t.eval answer' = some a := by
  induction t with
  | done b => exact ht
  | ask q next ih =>
    obtain ⟨r, hr, hnext⟩ := Option.bind_eq_some_iff.mp ht
    exact Option.bind_eq_some_iff.mpr ⟨r, h q r hr, ih r hnext⟩

theorem run_mono {call call' : Q → S → Option (R × S)} (h : ∀ q s x, call q s = some x → call' q s = some x)
    {s : S} {x : α × S} (ht : t.run call s = some x) : t.run call' s = some x := by
  induction t generalizing s with
  | done a => exact ht
  | ask q next ih =>
    obtain ⟨y, hy, hnext⟩ := Option.bind_eq_some_iff.mp ht
    exact Option.bind_eq_some_iff.mpr ⟨y, h q s y hy, ih y.1 hnext⟩

theorem run_invariant {call : Q → S → Option (R × S)} {I : S → Prop}
    (hcall : ∀ q s x, t.May q → I s → call q s = some x → I x.2) {s : S} (hs : I s) {x : α × S}
    (ht : t.run call s = some x) : I x.2 := by
  induction t generalizing s with
  | done a =>
    cases ht
    exact hs
  | ask q next ih =>
    obtain ⟨y, hy, hnext⟩ := Option.bind_eq_some_iff.mp ht
    apply ih y.1 _ (hcall q s y .here hs hy) hnext
    exact fun q' s' x' hmay => hcall q' s' x' (.later hmay)

end Ask

section

structure Table (Q R : Type) where
  memo : Q → Option R
  visiting : Q → Bool

def Table.new : Table Q R := ⟨fun _ => none, fun _ => false⟩

variable [DecidableEq Q]

def Table.enter (s : Table Q R) (q : Q) : Table Q R := { s with visiting := update s.visiting q true }

def Table.leave (s : Table Q R) (q : Q) (r : R) : Table Q R := ⟨update s.memo q (some r), update s.visiting q false⟩

theorem Table.visiting_enter (s : Table Q R) (q : Q) : (s.enter q).visiting = update s.visiting q true := rfl

theorem Table.memo_leave (s : Table Q R) (q : Q) (r : R) : (s.leave q r).memo = update s.memo q (some r) := rfl

variable (body : Q → Ask Q R R) (fallback : R)

def search : ℕ → Q → Table Q R → Option (R × Table Q R)
  | 0, _, _ => none
  | n + 1, q, s =>
    match s.memo q with
    | some r => some (r, s)
    | none =>
      if s.visiting q then some (fallback, s)
      else ((body q).run (search n) (s.enter q)).map fun x => (x.1, x.2.leave q x.1)

omit [DecidableEq Q] in
def value : ℕ → Q → Option R
  | 0, _ => none
  | n + 1, q => (body q).eval (value n)

def Value (q : Q) (r : R) : Prop := ∃ n, value body n q = some r

inductive Reached : Table Q R → Prop
  | new : Reached .new
  | query {s : Table Q R} {n : ℕ} {q : Q} {x : R × Table Q R} (hs : Reached s)
      (h : search body fallback n q s = some x) : Reached x.2

variable {body fallback} {n : ℕ} {q : Q} {r : R} {s : Table Q R}

omit [DecidableEq Q] in
theorem value_succ (h : value body n q = some r) : value body (n + 1) q = some r := by
  induction n generalizing q r with
  | zero => cases h
  | succ n ih => exact Ask.eval_mono (fun q r => ih) h

omit [DecidableEq Q] in
theorem value_mono {m : ℕ} (hnm : n ≤ m) (h : value body n q = some r) : value body m q = some r := by
  induction hnm with
  | refl => exact h
  | step _ ih => exact value_succ ih

omit [DecidableEq Q] in
theorem Value.unique {r' : R} (h : Value body q r) (h' : Value body q r') : r = r' := by
  obtain ⟨n, hn⟩ := h
  obtain ⟨m, hm⟩ := h'
  apply Option.some.inj
  rw [← value_mono (Nat.le_max_left n m) hn, ← value_mono (Nat.le_max_right n m) hm]

omit [DecidableEq Q] in
theorem eval_le {t : Ask Q R α} {a : α} {m : ℕ} (hnm : n ≤ m) (h : t.eval (value body n) = some a) :
    t.eval (value body m) = some a := Ask.eval_mono (fun _ _ => value_mono hnm) h

variable {x : R × Table Q R}

theorem search_succ (h : search body fallback n q s = some x) : search body fallback (n + 1) q s = some x := by
  induction n generalizing q s x with
  | zero => cases h
  | succ n ih =>
    unfold search at h ⊢
    cases hmemo : s.memo q with
    | some r => simpa only [hmemo] using h
    | none =>
      simp only [hmemo] at h ⊢
      by_cases hvisiting : s.visiting q = true
      · rwa [if_pos hvisiting] at h ⊢
      · rw [if_neg hvisiting] at h ⊢
        obtain ⟨y, hy, rfl⟩ := Option.map_eq_some_iff.mp h
        exact Option.map_eq_some_iff.mpr ⟨y, Ask.run_mono (fun q s x => ih) hy, rfl⟩

theorem search_mono {m : ℕ} (hnm : n ≤ m) (h : search body fallback n q s = some x) :
    search body fallback m q s = some x := by
  induction hnm with
  | refl => exact h
  | step _ ih => exact search_succ ih

/-- How a search that has a result came to it. -/
theorem search_cases (h : search body fallback (n + 1) q s = some x) :
    (s.memo q = some x.1 ∧ x.2 = s) ∨ (s.visiting q = true ∧ x.1 = fallback ∧ x.2 = s) ∨
      s.memo q = none ∧ s.visiting q = false ∧
        ∃ y, (body q).run (search body fallback n) (s.enter q) = some y ∧ x = (y.1, y.2.leave q y.1) := by
  unfold search at h
  cases hmemo : s.memo q with
  | some r =>
    simp only [hmemo, Option.some.injEq] at h
    subst h
    exact .inl ⟨rfl, rfl⟩
  | none =>
    simp only [hmemo] at h
    by_cases hvisiting : s.visiting q = true
    · rw [if_pos hvisiting] at h
      cases h
      exact .inr (.inl ⟨hvisiting, rfl, rfl⟩)
    · rw [if_neg hvisiting] at h
      obtain ⟨y, hy, rfl⟩ := Option.map_eq_some_iff.mp h
      exact .inr (.inr ⟨rfl, Bool.eq_false_iff.mpr hvisiting, y, hy, rfl⟩)

theorem search_visiting (h : search body fallback n q s = some x) : x.2.visiting = s.visiting := by
  induction n generalizing q s x with
  | zero => cases h
  | succ n ih =>
    rcases search_cases h with ⟨-, hs⟩ | ⟨-, -, hs⟩ | ⟨-, hq, y, hy, rfl⟩
    · rw [hs]
    · rw [hs]
    · have hkept : y.2.visiting = (s.enter q).visiting :=
        Ask.run_invariant (I := fun s' => s'.visiting = (s.enter q).visiting)
          (fun q' s' x' _ hs' hx' => (ih hx').trans hs') rfl hy
      rw [Table.leave, hkept, Table.enter, Function.update_idem, ← hq, Function.update_eq_self]

end

section
variable {body : Q → Ask Q R R} {fallback : R} {q : Q} {r : R} {s : Table Q R} {n : ℕ}

def Acyclic (body : Q → Ask Q R R) : Prop := ∀ q, ¬ TransGen (fun a b => (body a).May b) q q

def Table.Right (body : Q → Ask Q R R) (s : Table Q R) : Prop := ∀ q r, s.memo q = some r → Value body q r

def Table.Above (body : Q → Ask Q R R) (s : Table Q R) (q : Q) : Prop :=
  ∀ v, s.visiting v = true → TransGen (fun a b => (body a).May b) v q

variable {t : Ask Q R α} {call : Q → Table Q R → Option (R × Table Q R)} {I : Table Q R → Prop}

theorem run_right
    (hcall : ∀ q s x, t.May q → I s → call q s = some x → Value body q x.1 ∧ I x.2) (hs : I s) {x : α × Table Q R}
    (ht : t.run call s = some x) : (∃ n, t.eval (value body n) = some x.1) ∧ I x.2 := by
  induction t generalizing s with
  | done a =>
    cases ht
    exact ⟨⟨0, rfl⟩, hs⟩
  | ask q next ih =>
    obtain ⟨y, hy, hnext⟩ := Option.bind_eq_some_iff.mp ht
    obtain ⟨⟨n, hn⟩, hI⟩ := hcall q s y .here hs hy
    obtain ⟨⟨m, hm⟩, hlast⟩ := ih y.1 (fun q' s' x' hmay => hcall q' s' x' (.later hmay)) hI hnext
    refine ⟨⟨max n m, Option.bind_eq_some_iff.mpr ⟨y.1, value_mono (Nat.le_max_left n m) hn, ?_⟩⟩, hlast⟩
    exact eval_le (Nat.le_max_right n m) hm

theorem run_of_eval {answer : Q → Option R} {a : α}
    (hcall : ∀ q r s, t.May q → I s → answer q = some r → ∃ s', call q s = some (r, s') ∧ I s') (hs : I s)
    (ht : t.eval answer = some a) : ∃ s', t.run call s = some (a, s') := by
  induction t generalizing s with
  | done b =>
    cases ht
    exact ⟨s, rfl⟩
  | ask q next ih =>
    obtain ⟨r, hr, hnext⟩ := Option.bind_eq_some_iff.mp ht
    obtain ⟨s', hs', hI⟩ := hcall q r s .here hs hr
    obtain ⟨s'', hs''⟩ := ih r (fun q' r' s' hmay => hcall q' r' s' (.later hmay)) hI hnext
    exact ⟨s'', Option.bind_eq_some_iff.mpr ⟨(r, s'), hs', hs''⟩⟩

variable [DecidableEq Q]

theorem Table.Above.enter (h : s.Above body q) {q' : Q} (hmay : (body q).May q') : (s.enter q).Above body q' := by
  intro v hv
  by_cases hvq : v = q
  · rw [hvq]
    exact .single hmay
  · rw [Table.visiting_enter, update_of_ne hvq] at hv
    exact (h v hv).tail hmay

theorem Table.Right.leave (h : s.Right body) (hvalue : Value body q r) : (s.leave q r).Right body := by
  intro q' r' hmemo
  by_cases hq : q' = q
  · subst hq
    rw [Table.memo_leave, update_self] at hmemo
    cases hmemo
    exact hvalue
  · rw [Table.memo_leave, update_of_ne hq] at hmemo
    exact h q' r' hmemo

variable (hacyclic : Acyclic body)
include hacyclic

theorem search_right {x : R × Table Q R} (h : search body fallback n q s = some x)
    (hs : s.Right body) (habove : s.Above body q) : Value body q x.1 ∧ x.2.Right body := by
  induction n generalizing q s x with
  | zero => cases h
  | succ n ih =>
    rcases search_cases h with ⟨hmemo, hx⟩ | ⟨hvisiting, -, -⟩ | ⟨-, -, y, hy, rfl⟩
    · rw [hx]
      exact ⟨hs q x.1 hmemo, hs⟩
    · exact absurd (habove q hvisiting) (hacyclic q)
    · -- the calls keep the table right, and what is being answered stays above what they ask
      have hcall : ∀ q' s' x', (body q).May q' → (s'.Right body ∧ s'.visiting = (s.enter q).visiting) →
          search body fallback n q' s' = some x' →
          Value body q' x'.1 ∧ x'.2.Right body ∧ x'.2.visiting = (s.enter q).visiting := by
        rintro q' s' x' hmay ⟨hright, hvisiting⟩ hx'
        have habove' : s'.Above body q' := by
          intro v hv
          rw [hvisiting] at hv
          exact habove.enter hmay v hv
        obtain ⟨hvalue, hright'⟩ := ih hx' hright habove'
        exact ⟨hvalue, hright', (search_visiting hx').trans hvisiting⟩
      obtain ⟨⟨m, hm⟩, hkept⟩ := run_right (s := s.enter q) hcall ⟨hs, rfl⟩ hy
      exact ⟨⟨m + 1, hm⟩, hkept.1.leave ⟨m + 1, hm⟩⟩

theorem search_of_value (h : value body n q = some r) (hs : s.Right body)
    (habove : s.Above body q) : ∃ s', search body fallback n q s = some (r, s') := by
  induction n generalizing q r s with
  | zero => cases h
  | succ n ih =>
    unfold search
    cases hmemo : s.memo q with
    | some r' =>
      obtain rfl := (hs q r' hmemo).unique ⟨n + 1, h⟩
      exact ⟨s, rfl⟩
    | none =>
      have hvisiting : ¬ s.visiting q = true := fun hv => hacyclic q (habove q hv)
      simp only [if_neg hvisiting]
      obtain ⟨s', hs'⟩ := run_of_eval (s := s.enter q)
        (I := fun s' => s'.Right body ∧ s'.visiting = (s.enter q).visiting) (fun q' r' s' hmay hI hr' => by
          have habove' : s'.Above body q' := by
            intro v hv
            rw [hI.2] at hv
            exact habove.enter hmay v hv
          obtain ⟨s'', hs''⟩ := ih hr' hI.1 habove'
          exact ⟨s'', hs'', (search_right hacyclic hs'' hI.1 habove').2, (search_visiting hs'').trans hI.2⟩)
        ⟨hs, rfl⟩ h
      exact ⟨s'.leave q r, Option.map_eq_some_iff.mpr ⟨(r, s'), hs', rfl⟩⟩

theorem Reached.right (h : Reached body fallback s) : s.Right body ∧ s.visiting = fun _ => false := by
  induction h with
  | new =>
    refine ⟨?_, rfl⟩
    intro q r h
    cases h
  | query _ hsearch ih =>
    have habove : ∀ q, Table.Above body _ q := fun q v hv => by
      rw [ih.2] at hv
      cases hv
    exact ⟨(search_right hacyclic hsearch ih.1 (habove _)).2, (search_visiting hsearch).trans ih.2⟩

/-- The results of a search are those of the plain recursion. -/
theorem Reached.search_iff (h : Reached body fallback s) :
    (∃ n s', search body fallback n q s = some (r, s')) ↔ Value body q r := by
  obtain ⟨hright, hvisiting⟩ := h.right hacyclic
  have habove : s.Above body q := fun v hv => by
    rw [hvisiting] at hv
    cases hv
  constructor
  · rintro ⟨n, s', hsearch⟩
    exact (search_right hacyclic hsearch hright habove).1
  · rintro ⟨n, hn⟩
    exact ⟨n, search_of_value hacyclic hn hright habove⟩

end

section
variable (body : Q → Ask Q R R) (fallback : R)

/-- The results of the plain recursion in which any question may also be answered with the fixed result. -/
inductive Possible : Q → R → Prop
  | cut (q : Q) : Possible q fallback
  | body {q : Q} {r : R} (h : (body q).Gives Possible r) : Possible q r

/-- An answer is the one of the plain recursion, if that has one. -/
def Allowed (q : Q) (r : R) : Prop := Possible body fallback q r ∧ ∀ r', Value body q r' → r = r'

def Follows (q q' : Q) : Prop := (body q).Asks (Allowed body fallback) q'

variable {body fallback} {n : ℕ} {q : Q} {r : R} {s : Table Q R} {t : Ask Q R α}

variable (body fallback) in
/-- The table holds allowed answers, and what is being answered comes before `q` if the plain recursion answers it. -/
structure Table.Fair (s : Table Q R) (q : Q) : Prop where
  memo : ∀ q r, s.memo q = some r → Allowed body fallback q r
  above : ∀ v r, s.visiting v = true → Value body v r → TransGen (Follows body fallback) v q

variable [DecidableEq Q]

theorem Table.Fair.enter {q' : Q} {s' : Table Q R} (h : s.Fair body fallback q) (hq : Follows body fallback q q')
    (hvisiting : s'.visiting = (s.enter q).visiting) (hmemo : ∀ q r, s'.memo q = some r → Allowed body fallback q r) :
    s'.Fair body fallback q' := by
  refine ⟨hmemo, fun v r hv hvalue => ?_⟩
  rw [hvisiting, Table.visiting_enter] at hv
  by_cases hvq : v = q
  · rw [hvq]
    exact .single hq
  · rw [update_of_ne hvq] at hv
    exact (h.above v r hv hvalue).tail hq

end

variable [DecidableEq Q] (body : Q → Ask Q R R) (fallback : R)

inductive Comes : Ask Q R α → Table Q R → Q × Table Q R → Prop
  | here {q : Q} {next : R → Ask Q R α} {s : Table Q R} : Comes (.ask q next) s (q, s)
  | later {q : Q} {next : R → Ask Q R α} {s : Table Q R} {x : Q × Table Q R} {n : ℕ} {y : R × Table Q R}
      (hy : search body fallback n q s = some y) (h : Comes (next y.1) y.2 x) : Comes (.ask q next) s x

def Calls (x y : Q × Table Q R) : Prop :=
  x.2.memo x.1 = none ∧ x.2.visiting x.1 = false ∧ Comes body fallback (body x.1) (x.2.enter x.1) y

def Ends (x : Q × Table Q R) : Prop := ∃ n y, search body fallback n x.1 x.2 = some y

variable {body fallback} {n : ℕ} {s : Table Q R} {t : Ask Q R α} {y : Q × Table Q R}

theorem run_comes {x : α × Table Q R} (h : t.run (search body fallback n) s = some x)
    (hy : Comes body fallback t s y) : ∃ z, search body fallback n y.1 y.2 = some z := by
  induction hy with
  | here =>
    obtain ⟨z, hz, -⟩ := Option.bind_eq_some_iff.mp h
    exact ⟨z, hz⟩
  | @later q next s x m y hy _ ih =>
    obtain ⟨z, hz, hnext⟩ := Option.bind_eq_some_iff.mp h
    have heq : z = y := by
      apply Option.some.inj
      rw [← search_mono (Nat.le_max_left n m) hz, ← search_mono (Nat.le_max_right n m) hy]
    exact ih (heq ▸ hnext)

theorem run_of_comes (h : ∀ y, Comes body fallback t s y → Ends body fallback y) :
    ∃ n x, t.run (search body fallback n) s = some x := by
  induction t generalizing s with
  | done a => exact ⟨0, _, rfl⟩
  | ask q next ih =>
    obtain ⟨n, y, hy⟩ := h (q, s) .here
    obtain ⟨m, x, hx⟩ := ih y.1 fun z hz => h z (.later hy hz)
    refine ⟨max n m, x, Option.bind_eq_some_iff.mpr ⟨y, search_mono (Nat.le_max_left n m) hy, ?_⟩⟩
    exact Ask.run_mono (fun _ _ _ => search_mono (Nat.le_max_right n m)) hx

variable {x : Q × Table Q R}

theorem ends_iff_acc : Ends body fallback x ↔ Acc (fun y x => Calls body fallback x y) x := by
  constructor
  · rintro ⟨n, y, hy⟩
    induction n generalizing x y with
    | zero => cases hy
    | succ n ih =>
      constructor
      rintro z ⟨hmemo, hvisiting, hz⟩
      rcases search_cases hy with ⟨hmemo', -⟩ | ⟨hvisiting', -, -⟩ | ⟨-, -, w, hw, -⟩
      · rw [hmemo] at hmemo'
        cases hmemo'
      · rw [hvisiting] at hvisiting'
        cases hvisiting'
      · obtain ⟨v, hv⟩ := run_comes hw hz
        exact ih v hv
  · intro hacc
    induction hacc with
    | intro x _ ih =>
      cases hmemo : x.2.memo x.1 with
      | some r => exact ⟨1, (r, x.2), by simp [search, hmemo]⟩
      | none =>
        by_cases hvisiting : x.2.visiting x.1 = true
        · exact ⟨1, (fallback, x.2), by simp [search, hmemo, hvisiting]⟩
        · obtain ⟨n, y, hy⟩ := run_of_comes fun z hz => ih z ⟨hmemo, Bool.eq_false_iff.mpr hvisiting, hz⟩
          exact ⟨n + 1, (y.1, y.2.leave x.1 y.1), by simp [search, hmemo, hvisiting, hy]⟩

def Endless (body : Q → Ask Q R R) (fallback : R) (x : Q × Table Q R) : Prop :=
  ∃ chain : ℕ → Q × Table Q R, chain 0 = x ∧ ∀ n, Calls body fallback (chain n) (chain (n + 1))

theorem ends_iff : Ends body fallback x ↔ ¬ Endless body fallback x := by
  rw [ends_iff_acc, ← not_iff_not, not_not, not_acc_iff_exists_descending_chain]
  rfl

end Vx.Lib.Memo
