import Vx.Lib.Numbered
import Vx.Prover.Facts

/-!
What the checker knows about the raw pointers of a body: `hir/check/pointer_facts.rs`. A range of elements at a base is
valid or holds values, and two rows of elements are apart.
-/

namespace Vx.Pointer

open Prover (Names substituteNames exprMentions)

abbrev Span := ℕ × ℕ

inductive Memory
  | ofLocal (var : String) (drops : Bool)
  | other
deriving DecidableEq

inductive Kind
  | valid
  | init
deriving DecidableEq

structure Range where
  id : ℕ
  kind : Kind
  base : ℕ
  lo : List Expr
  hi : List Expr
  merged : Bool

structure Apart where
  id : ℕ
  first : ℕ × List Expr
  second : ℕ × List Expr
  len : Expr

structure Ended where
  range : Range
  at' : Span
  why : String

structure PointerValue where
  base : ℕ
  offset : List Expr

theorem PointerValue.eq_iff (v w : PointerValue) : v = w ↔ v.base = w.base ∧ v.offset = w.offset := by
  cases v
  cases w
  simp

instance [DecidableEq Expr] : DecidableEq PointerValue := fun v w => decidable_of_iff' _ (v.eq_iff w)

structure PointerFacts where
  memory : ℕ → Option (List Memory) := fun _ => none
  entries : String → Option PointerValue := fun _ => none
  ranges : List Range := []
  aparts : List Apart := []
  ended : List Ended := []
  results : Span → Option PointerValue := fun _ => none
  tasks : List (ℕ × Option String × Span) := []

def anyMentions (name : String) (terms : List Expr) : Bool := terms.any (exprMentions name)

def Range.mentions (name : String) (r : Range) : Bool := anyMentions name (r.lo ++ r.hi)

def Apart.mentions (name : String) (a : Apart) : Bool := anyMentions name (a.first.2 ++ a.second.2 ++ [a.len])

namespace PointerFacts

def forget (f : PointerFacts) (name : String) : PointerFacts :=
  { f with
    entries := fun n => if n = name then none else (f.entries n).filter fun v => !anyMentions name v.offset
    ranges := f.ranges.filter fun r => !r.mentions name
    ended := f.ended.filter fun e => !e.range.mentions name
    aparts := f.aparts.filter fun a => !a.mentions name }

def isEnded (f : PointerFacts) (ends : Range → Memory → Bool) (r : Range) : Bool :=
  (f.memory r.base).any fun ms => ms.any (ends r)

def endRanges (f : PointerFacts) (at' : Span) (why : String) (ends : Range → Memory → Bool) : PointerFacts :=
  { f with
    ranges := f.ranges.filter fun r => !f.isEnded ends r
    ended := f.ended ++ (f.ranges.filter (f.isEnded ends)).map fun r => ⟨r, at', why⟩ }

def joinEnded (ended : List Ended) (e : Ended) : List Ended :=
  if ended.any fun s => s.range.id = e.range.id then ended else ended ++ [e]

def joinTask (tasks : List (ℕ × Option String × Span)) (t : ℕ × Option String × Span) :
    List (ℕ × Option String × Span) := if t ∈ tasks then tasks else tasks ++ [t]

def join [DecidableEq Expr] (f other : PointerFacts) : PointerFacts :=
  { f with
    entries := fun n => (f.entries n).filter fun v => other.entries n = some v
    ranges := f.ranges.filter fun r => other.ranges.any fun o => o.id = r.id
    aparts := f.aparts.filter fun a => other.aparts.any fun o => o.id = a.id
    ended := other.ended.foldl joinEnded f.ended
    memory := fun b => (f.memory b).or (other.memory b)
    tasks := other.tasks.foldl joinTask f.tasks }

end PointerFacts

inductive Exact
  | term (e : Expr)
  | sum (terms : List Exact)
  | le (a b : Exact)
  | and (goals : List Exact)
  | or (goals : List Exact)

def sum (terms more : List Expr) : Exact := .sum ((terms ++ more).map .term)

def zero : Expr := .number "0" none

def one : Expr := .number "1" none

inductive Clause
  | valid (v : PointerValue)
  | initialized (v : PointerValue)
  | notOverlaps (a b : PointerValue)

def within (m : Expr) (r : Range) (v : PointerValue) : Exact :=
  .and [.le (sum r.lo []) (sum v.offset []), .le (sum v.offset [m]) (sum r.hi [])]

def twoRanges (m : Expr) (v : PointerValue) (a b : Range) : Exact :=
  .and [.le (sum a.lo []) (sum v.offset []), .le (sum a.lo []) (sum b.lo []),
    match a.kind with
    | .init => .le (sum b.lo []) (sum a.hi [])
    | .valid => .le (sum b.lo [one]) (sum a.hi []),
    .le (sum v.offset [m]) (sum b.hi [])]

def rowGoal (ranges : List Range) (kind : Kind) (v : PointerValue) (m : Expr) : Exact :=
  let mine := ranges.filter fun r => r.kind = kind && r.base = v.base
  .and [.le (.term zero) (.term m),
    .or (mine.map (fun r => within m r v) ++
      mine.flatMap (fun a => (mine.filter fun b => b.id ≠ a.id).map fun b => twoRanges m v a b) ++
      if kind = .init then [.le (.term m) (.term zero)] else [])]

def window (m len : Expr) (lo : List Expr) (v : PointerValue) : Exact :=
  .and [.le (sum lo []) (sum v.offset []), .le (sum v.offset [m]) (sum lo [len])]

def oneRange (ranges : List Range) (a b : PointerValue) (m : Expr) : List Exact :=
  if a.base = b.base then
    (ranges.filter fun r => r.kind = .valid && r.base = a.base).map fun r =>
      .and [within m r a, within m r b,
        .or [.le (sum a.offset [m]) (sum b.offset []), .le (sum b.offset [m]) (sum a.offset [])]]
  else []

def apartGoals (m : Expr) (a b : PointerValue) (apart : Apart) : List Exact :=
  [(a, b), (b, a)].flatMap fun (x, y) =>
    if apart.first.1 = x.base && apart.second.1 = y.base then
      [.and [window m apart.len apart.first.2 x, window m apart.len apart.second.2 y]]
    else []

def pointerGoal (facts : PointerFacts) (clause : Clause) (m : Expr) (extra : Option Range) : Exact :=
  let ranges := facts.ranges ++ extra.toList
  match clause with
  | .valid v => rowGoal ranges .valid v m
  | .initialized v => rowGoal ranges .init v m
  | .notOverlaps a b =>
    .or (.le (.term m) (.term zero) :: (oneRange ranges a b m ++ facts.aparts.flatMap (apartGoals m a b)))

structure Checker where
  facts : PointerFacts
  ids : ℕ

section
variable (prove : Exact → Bool)

def atMost (a b : List Expr) : Exact := .le (sum a []) (sum b [])

def mergedEnds (r : Range) (lo hi : List Expr) : Option (List Expr × List Expr) :=
  if prove (.and [atMost r.lo lo, atMost lo r.hi, atMost r.hi hi]) then some (r.lo, hi)
  else if prove (.and [atMost lo r.lo, atMost r.lo hi, atMost hi r.hi]) then some (lo, r.hi)
  else if prove (.and [atMost lo r.lo, atMost r.hi hi]) then some (lo, hi)
  else none

def putMerged (r new : Range) : List Range → List Range
  | [] => [new]
  | f :: fs => if f.id = r.id ∧ f.merged then new :: fs else f :: putMerged r new fs

def mergeFirst (c : Checker) (base : ℕ) (lo hi : List Expr) : List Range → Option Checker
  | [] => none
  | r :: rs =>
    match mergedEnds prove r lo hi with
    | some (newLo, newHi) =>
      let merged : Range := ⟨c.ids + 1, .init, base, newLo, newHi, true⟩
      some ⟨{ c.facts with ranges := putMerged r merged c.facts.ranges }, c.ids + 1⟩
    | none => mergeFirst c base lo hi rs

/-- The checker after a fact that takes the place of a new one, if there is such a fact. The merged facts come first. -/
def mergeInit (c : Checker) (base : ℕ) (lo hi : List Expr) : Option Checker :=
  let same := c.facts.ranges.filter fun r => r.kind = .init && r.base = base
  if same.any fun r => prove (.and [atMost r.lo lo, atMost hi r.hi]) then some c
  else mergeFirst prove c base lo hi (same.filter (·.merged) ++ same.filter (!·.merged))

def pushRange (c : Checker) (kind : Kind) (base : ℕ) (lo hi : List Expr) : Checker :=
  ⟨{ c.facts with ranges := c.facts.ranges ++ [⟨c.ids + 1, kind, base, lo, hi, false⟩] }, c.ids + 1⟩

def addRange (c : Checker) (kind : Kind) (base : ℕ) (lo hi : List Expr) : Checker :=
  if kind = .init then (mergeInit prove c base lo hi).getD (pushRange c kind base lo hi)
  else pushRange c kind base lo hi

def addApart (c : Checker) (a b : PointerValue) (n : Expr) : Checker :=
  ⟨{ c.facts with aparts := c.facts.aparts ++ [⟨c.ids + 1, (a.base, a.offset), (b.base, b.offset), n⟩] }, c.ids + 1⟩

def addRow (c : Checker) (kind : Kind) (v : PointerValue) (n : Expr) : Checker :=
  match c.facts.tasks.getLast?.filter fun _ => (c.facts.memory v.base).any (.other ∈ ·) with
  | some (_, _, spawn) =>
    let range : Range := ⟨c.ids + 1, kind, v.base, v.offset, v.offset ++ [n], false⟩
    ⟨{ c.facts with ended := c.facts.ended ++
      [⟨range, spawn, "the `spawn`, whose task can free memory until its `join()`"⟩] }, c.ids + 1⟩
  | none => addRange prove c kind v.base v.offset (v.offset ++ [n])

def addPointerFact (c : Checker) (clause : Clause) (n : Expr) : Checker :=
  match clause with
  | .valid v => addRow prove c .valid v n
  | .initialized v => addRow prove c .init v n
  | .notOverlaps a b => addApart c a b n

end

def renameTerm (name : String) (names : Names) (t : Expr) : Expr :=
  if exprMentions name t then substituteNames names t else t

def Range.renamed (name : String) (names : Names) (id : ℕ) (r : Range) : Option Range :=
  if r.mentions name then
    some { r with id := id, lo := r.lo.map (renameTerm name names), hi := r.hi.map (renameTerm name names) }
  else none

def Ended.renamed (name : String) (names : Names) (id : ℕ) (e : Ended) : Option Ended :=
  (e.range.renamed name names id).map fun r => { e with range := r }

def Apart.renamed (name : String) (names : Names) (id : ℕ) (a : Apart) : Option Apart :=
  if a.mentions name then
    some ⟨id, (a.first.1, a.first.2.map (renameTerm name names)), (a.second.1, a.second.2.map (renameTerm name names)),
      renameTerm name names a.len⟩
  else none

/-- Before an assignment to `name`, whose old value has a new name in `names`. A fact that changes gets a new number. -/
def pointerFactsNameTheOldValue (c : Checker) (name : String) (names : Names) : Checker :=
  let entries := fun n => (c.facts.entries n).map fun v =>
    { v with offset := v.offset.map (renameTerm name names) }
  let ranges := Lib.Numbered.renumber (Range.renamed name names) c.ids c.facts.ranges
  let ended := Lib.Numbered.renumber (Ended.renamed name names) ranges.2 c.facts.ended
  let aparts := Lib.Numbered.renumber (Apart.renamed name names) ended.2 c.facts.aparts
  ⟨{ c.facts with entries, ranges := ranges.1, ended := ended.1, aparts := aparts.1 }.forget name, aparts.2⟩

def Range.withNames (names : Names) (r : Range) : Range :=
  { r with lo := r.lo.map (substituteNames names), hi := r.hi.map (substituteNames names) }

def Apart.withNames (names : Names) (a : Apart) : Apart :=
  { a with
    first := (a.first.1, a.first.2.map (substituteNames names))
    second := (a.second.1, a.second.2.map (substituteNames names))
    len := substituteNames names a.len }

def pointerFactsNameTheResult (f : PointerFacts) (names : Names) : PointerFacts :=
  { f with ranges := f.ranges.map (Range.withNames names), aparts := f.aparts.map (Apart.withNames names) }

end Vx.Pointer
