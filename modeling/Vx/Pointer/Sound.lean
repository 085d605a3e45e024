import Vx.Pointer.Meaning

namespace Vx.Pointer

open List
open Lib.AddressSpace
open Lib.Numbered
open Prover (Names)

section
variable {limit : ℤ} {s : State limit} {prove : Exact → Bool}

def State.Trusts (s : State limit) (prove : Exact → Bool) : Prop := ∀ g, prove g = true → g.Holds s.term

theorem atMost_holds_iff (a b : List Expr) : (atMost a b).Holds s.term ↔ s.total a ≤ s.total b := by
  simp [atMost, Exact.Holds]

variable {base : ℕ} {hi lo : List Expr}

theorem mergedEnds_holds (hprove : s.Trusts prove) {r : Range} {newLo newHi : List Expr}
    (hkind : r.kind = .init) (hbase : r.base = base) (hr : s.RangeHolds r)
    (hnew : s.Row .init base (s.addressAt base (s.total lo)) (s.total hi - s.total lo))
    (h : mergedEnds prove r lo hi = some (newLo, newHi)) :
    s.Row .init base (s.addressAt base (s.total newLo)) (s.total newHi - s.total newLo) := by
  rw [State.RangeHolds, hkind, hbase] at hr
  rw [mergedEnds] at h
  split_ifs at h with hafter hbefore hcovers
  · cases h
    have hgoal := hprove _ hafter
    simp only [Exact.Holds, Exact.AllHold, atMost_holds_iff, and_true] at hgoal
    exact State.row_init_union hr hnew hgoal.1 hgoal.2.1
  · cases h
    have hgoal := hprove _ hbefore
    simp only [Exact.Holds, Exact.AllHold, atMost_holds_iff, and_true] at hgoal
    exact State.row_init_union hnew hr hgoal.1 hgoal.2.1
  · cases h
    exact hnew

theorem mem_putMerged {r new x : Range} {ranges : List Range} (h : x ∈ putMerged r new ranges) :
    x ∈ ranges ∨ x = new := by
  induction ranges with
  | nil => exact .inr (List.mem_singleton.mp h)
  | cons f fs ih =>
    rw [putMerged] at h
    split_ifs at h
    · rcases List.mem_cons.mp h with rfl | h
      · exact .inr rfl
      · exact .inl (mem_cons_of_mem _ h)
    · rcases List.mem_cons.mp h with rfl | h
      · exact .inl mem_cons_self
      · exact (ih h).imp_left (mem_cons_of_mem _)

inductive AddsOne (c : Checker) : Checker → Range → Prop
  | covered (new : Range) : AddsOne c c new
  | added {new : Range} {ranges : List Range} (hid : new.id = c.ids + 1) (h : ∀ r ∈ ranges, r ∈ c.facts.ranges ∨ r = new) :
    AddsOne c ⟨{ c.facts with ranges := ranges }, c.ids + 1⟩ new

theorem pushRange_addsOne (c : Checker) (kind : Kind) (base : ℕ) (lo hi : List Expr) :
    AddsOne c (pushRange c kind base lo hi) ⟨c.ids + 1, kind, base, lo, hi, false⟩ :=
  .added rfl fun _ hr => (List.mem_append.mp hr).imp_right List.mem_singleton.mp

theorem mergeFirst_addsOne {c c' : Checker} {rs : List Range} (h : mergeFirst prove c base lo hi rs = some c') :
    ∃ r ∈ rs, ∃ newLo newHi, mergedEnds prove r lo hi = some (newLo, newHi) ∧
      AddsOne c c' ⟨c.ids + 1, .init, base, newLo, newHi, true⟩ := by
  induction rs with
  | nil => cases h
  | cons r rs ih =>
    rw [mergeFirst] at h
    cases hends : mergedEnds prove r lo hi with
    | some ends =>
      rw [hends] at h
      cases h
      exact ⟨r, mem_cons_self, ends.1, ends.2, hends, .added rfl fun _ hx => mem_putMerged hx⟩
    | none =>
      rw [hends] at h
      obtain ⟨r', hr', rest⟩ := ih h
      exact ⟨r', mem_cons_of_mem _ hr', rest⟩

theorem addRange_addsOne (prove : Exact → Bool) (c : Checker) (kind : Kind) (base : ℕ) (lo hi : List Expr) :
    ∃ new, AddsOne c (addRange prove c kind base lo hi) new ∧ ∀ (limit : ℤ) (s : State limit), s.Trusts prove →
      (∀ r ∈ c.facts.ranges, s.RangeHolds r) →
      s.Row kind base (s.addressAt base (s.total lo)) (s.total hi - s.total lo) → s.RangeHolds new := by
  rw [addRange]
  split_ifs with hkind
  · subst hkind
    cases hmerge : mergeInit prove c base lo hi with
    | none => exact ⟨_, pushRange_addsOne c .init base lo hi, fun _ _ _ _ hnew => hnew⟩
    | some c' =>
      rw [mergeInit] at hmerge
      split_ifs at hmerge
      · cases hmerge
        exact ⟨⟨0, .init, base, lo, hi, false⟩, .covered _, fun _ _ _ _ hnew => hnew⟩
      obtain ⟨r, hr, newLo, newHi, hends, hadds⟩ := mergeFirst_addsOne hmerge
      refine ⟨_, hadds, fun _ s hprove hold hnew => ?_⟩
      have hsame : r ∈ c.facts.ranges.filter fun r => r.kind = .init && r.base = base :=
        (List.mem_append.mp hr).elim mem_of_mem_filter mem_of_mem_filter
      obtain ⟨hmem, hcond⟩ := List.mem_filter.mp hsame
      rw [Bool.and_eq_true, decide_eq_true_eq, decide_eq_true_eq] at hcond
      exact mergedEnds_holds hprove hcond.1 hcond.2 (hold r hmem) hnew hends
  · exact ⟨_, pushRange_addsOne c kind base lo hi, fun _ _ _ _ hnew => hnew⟩

theorem AddsOne.holds {c c' : Checker} {new : Range} (h : AddsOne c c' new) (hfacts : s.Holds c.facts)
    (hnew : s.RangeHolds new) : s.Holds c'.facts := by
  cases h with
  | covered => exact hfacts
  | added _ hranges =>
    refine ⟨fun r hr => ?_, hfacts.aparts, hfacts.entries⟩
    rcases hranges r hr with hold | rfl
    · exact hfacts.ranges r hold
    · exact hnew

theorem addRange_holds {c : Checker} {kind : Kind} (hprove : s.Trusts prove)
    (hfacts : s.Holds c.facts) (hnew : s.Row kind base (s.addressAt base (s.total lo)) (s.total hi - s.total lo)) :
    s.Holds (addRange prove c kind base lo hi).facts := by
  obtain ⟨new, hadds, hholds⟩ := addRange_addsOne prove c kind base lo hi
  exact hadds.holds hfacts (hholds _ s hprove hfacts.ranges hnew)

structure Check where
  checker : Checker
  saved : List PointerFacts

def Check.copies (ch : Check) : List PointerFacts := ch.checker.facts :: ch.saved

inductive Change (c : Checker) : Checker → Prop
  | forget (name : String) : Change c ⟨c.facts.forget name, c.ids⟩
  | endRanges (at' : Span) (why : String) (ends : Range → Memory → Bool) :
    Change c ⟨c.facts.endRanges at' why ends, c.ids⟩
  | addRange (prove : Exact → Bool) (kind : Kind) (base : ℕ) (lo hi : List Expr) :
    Change c (addRange prove c kind base lo hi)
  | addPointerFact (prove : Exact → Bool) (clause : Clause) (n : Expr) : Change c (addPointerFact prove c clause n)
  | nameTheOldValue (name : String) (names : Names) : Change c (pointerFactsNameTheOldValue c name names)
  | others {facts : PointerFacts} {ids : ℕ} (hranges : facts.ranges = c.facts.ranges)
    (haparts : facts.aparts = c.facts.aparts) (hids : c.ids ≤ ids) : Change c ⟨facts, ids⟩

inductive Step [DecidableEq Expr] : Check → Check → Prop
  | change {c c' : Checker} {saved : List PointerFacts} (h : Change c c') : Step ⟨c, saved⟩ ⟨c', saved⟩
  | nameTheResult {c : Checker} {saved : List PointerFacts} (names : Names)
    (h : ∀ f ∈ saved, pointerFactsNameTheResult f names = f) :
    Step ⟨c, saved⟩ ⟨⟨pointerFactsNameTheResult c.facts names, c.ids⟩, saved⟩
  | save (c : Checker) (saved : List PointerFacts) : Step ⟨c, saved⟩ ⟨c, c.facts :: saved⟩
  | resume {c : Checker} {saved : List PointerFacts} {f : PointerFacts} (h : f ∈ saved) :
    Step ⟨c, saved⟩ ⟨⟨f, c.ids⟩, saved⟩
  | join {ch : Check} {f g : PointerFacts} (hf : f ∈ ch.copies) (hg : g ∈ ch.copies) :
    Step ch ⟨⟨f.join g, ch.checker.ids⟩, ch.saved⟩
  | discard {c : Checker} {saved saved' : List PointerFacts} (h : saved' ⊆ saved) : Step ⟨c, saved⟩ ⟨c, saved'⟩
  | enterBody (c : Checker) (saved : List PointerFacts) : Step ⟨c, saved⟩ ⟨⟨{}, c.ids⟩, saved⟩

def Reached [DecidableEq Expr] (ch : Check) : Prop := Relation.ReflTransGen Step ⟨⟨{}, 0⟩, []⟩ ch

structure OneFact (ch : Check) : Prop where
  ranges : Agree Range.id ch.checker.ids (ch.copies.map PointerFacts.ranges)
  aparts : Agree Apart.id ch.checker.ids (ch.copies.map PointerFacts.aparts)

structure FactsGrow (c c' : Checker) : Prop where
  ranges : Grows Range.id c.ids c.facts.ranges c'.ids c'.facts.ranges
  aparts : Grows Apart.id c.ids c.facts.aparts c'.ids c'.facts.aparts

variable {c c' : Checker}

theorem factsGrow_of_subset (hr : ∀ r ∈ c.facts.ranges, r.id ≤ c.ids) (ha : ∀ a ∈ c.facts.aparts, a.id ≤ c.ids)
    (hids : c.ids ≤ c'.ids) (hranges : c'.facts.ranges ⊆ c.facts.ranges)
    (haparts : c'.facts.aparts ⊆ c.facts.aparts) : FactsGrow c c' :=
  ⟨.of_subset hr hids hranges, .of_subset ha hids haparts⟩

theorem AddsOne.factsGrow {new : Range} (h : AddsOne c c' new) (hr : ∀ r ∈ c.facts.ranges, r.id ≤ c.ids)
    (ha : ∀ a ∈ c.facts.aparts, a.id ≤ c.ids) : FactsGrow c c' := by
  cases h with
  | covered => exact factsGrow_of_subset hr ha (Nat.le_refl _) (List.Subset.refl _) (List.Subset.refl _)
  | added hid hranges => exact ⟨.of_one hr hid hranges, .of_subset ha (Nat.le_succ _) (List.Subset.refl _)⟩

theorem addRange_factsGrow (prove : Exact → Bool) (kind : Kind) (base : ℕ) (lo hi : List Expr)
    (hr : ∀ r ∈ c.facts.ranges, r.id ≤ c.ids) (ha : ∀ a ∈ c.facts.aparts, a.id ≤ c.ids) :
    FactsGrow c (addRange prove c kind base lo hi) := by
  obtain ⟨new, hadds, _⟩ := addRange_addsOne prove c kind base lo hi
  exact hadds.factsGrow hr ha

theorem addPointerFact_factsGrow (prove : Exact → Bool) (clause : Clause) (n : Expr)
    (hr : ∀ r ∈ c.facts.ranges, r.id ≤ c.ids) (ha : ∀ a ∈ c.facts.aparts, a.id ≤ c.ids) :
    FactsGrow c (addPointerFact prove c clause n) := by
  have hrow : ∀ kind v, FactsGrow c (addRow prove c kind v n) := by
    intro kind v
    rw [addRow]
    split
    · exact factsGrow_of_subset hr ha (Nat.le_succ _) (List.Subset.refl _) (List.Subset.refl _)
    · exact addRange_factsGrow prove kind _ _ _ hr ha
  cases clause with
  | valid v => exact hrow .valid v
  | initialized v => exact hrow .init v
  | notOverlaps a b =>
    refine ⟨.of_subset hr (Nat.le_succ _) (List.Subset.refl _), ?_⟩
    have hmem : ∀ x ∈ (addApart c a b n).facts.aparts, x ∈ c.facts.aparts ∨
        x = ⟨c.ids + 1, (a.base, a.offset), (b.base, b.offset), n⟩ :=
      fun x hx => (List.mem_append.mp hx).imp_right List.mem_singleton.mp
    exact .of_one ha rfl hmem

variable {names : Names}

theorem range_renamed_id {name : String} (id : ℕ) (r : Range) : ∀ r' ∈ r.renamed name names id, r'.id = id := by
  intro r' hr'
  rw [Range.renamed] at hr'
  split_ifs at hr'
  · cases hr'
    rfl
  · cases hr'

theorem apart_renamed_id {name : String} (id : ℕ) (a : Apart) : ∀ a' ∈ a.renamed name names id, a'.id = id := by
  intro a' ha'
  rw [Apart.renamed] at ha'
  split_ifs at ha'
  · cases ha'
    rfl
  · cases ha'

theorem nameTheOldValue_factsGrow (name : String) (names : Names) (hr : ∀ r ∈ c.facts.ranges, r.id ≤ c.ids)
    (ha : ∀ a ∈ c.facts.aparts, a.id ≤ c.ids) : FactsGrow c (pointerFactsNameTheOldValue c name names) := by
  let ranges := renumber (Range.renamed name names) c.ids c.facts.ranges
  have hranges : Grows Range.id c.ids c.facts.ranges ranges.2 ranges.1 := renumber_grows range_renamed_id hr
  let ended := renumber (Ended.renamed name names) ranges.2 c.facts.ended
  let aparts := renumber (Apart.renamed name names) ended.2 c.facts.aparts
  have hended : ranges.2 ≤ ended.2 := le_renumber ranges.2 c.facts.ended
  have hids : c.ids ≤ ended.2 := Nat.le_trans hranges.le hended
  have haparts : Grows Apart.id ended.2 c.facts.aparts aparts.2 aparts.1 :=
    renumber_grows apart_renamed_id fun a hin => Nat.le_trans (ha a hin) hids
  exact ⟨hranges.mono hr (Nat.le_refl _) (Nat.le_trans hended haparts.le) (filter_subset_self _),
    haparts.mono ha hids (Nat.le_refl _) (filter_subset_self _)⟩

theorem Change.factsGrow (h : Change c c') (hr : ∀ r ∈ c.facts.ranges, r.id ≤ c.ids)
    (ha : ∀ a ∈ c.facts.aparts, a.id ≤ c.ids) : FactsGrow c c' := by
  cases h with
  | forget name =>
    exact factsGrow_of_subset hr ha (Nat.le_refl _) (filter_subset_self _) (filter_subset_self _)
  | endRanges at' why ends =>
    exact factsGrow_of_subset hr ha (Nat.le_refl _) (filter_subset_self _) (List.Subset.refl _)
  | addRange prove kind base lo hi => exact addRange_factsGrow prove kind base lo hi hr ha
  | addPointerFact prove clause n => exact addPointerFact_factsGrow prove clause n hr ha
  | nameTheOldValue name names => exact nameTheOldValue_factsGrow name names hr ha
  | others hranges haparts hids =>
    exact factsGrow_of_subset hr ha hids (hranges ▸ List.Subset.refl _) (haparts ▸ List.Subset.refl _)

variable {ch : Check}

theorem OneFact.of_subset {ch' : Check} (h : OneFact ch) (hids : ch'.checker.ids = ch.checker.ids)
    (hsub : ∀ f ∈ ch'.copies, ∃ f₀ ∈ ch.copies, f.ranges ⊆ f₀.ranges ∧ f.aparts ⊆ f₀.aparts) : OneFact ch' := by
  refine ⟨hids ▸ h.ranges.mono fun l hl => ?_, hids ▸ h.aparts.mono fun l hl => ?_⟩
  · obtain ⟨f, hf, rfl⟩ := List.mem_map.mp hl
    obtain ⟨f₀, hf₀, hranges, _⟩ := hsub f hf
    exact ⟨_, mem_map_of_mem hf₀, hranges⟩
  · obtain ⟨f, hf, rfl⟩ := List.mem_map.mp hl
    obtain ⟨f₀, hf₀, _, haparts⟩ := hsub f hf
    exact ⟨_, mem_map_of_mem hf₀, haparts⟩

variable {f : PointerFacts}

theorem OneFact.of_cons {f₀ : PointerFacts} {saved : List PointerFacts} (h : OneFact ch)
    (hf₀ : f₀ ∈ ch.copies) (hranges : f.ranges ⊆ f₀.ranges) (haparts : f.aparts ⊆ f₀.aparts)
    (hsaved : ∀ g ∈ saved, g ∈ ch.copies) : OneFact ⟨⟨f, ch.checker.ids⟩, saved⟩ := by
  refine h.of_subset rfl fun g hg => ?_
  rcases List.mem_cons.mp hg with rfl | hg
  · exact ⟨f₀, hf₀, hranges, haparts⟩
  · exact ⟨g, hsaved g hg, List.Subset.refl _, List.Subset.refl _⟩

theorem eq_self_of_map {α : Type} {f : α → α} {l : List α} (h : l.map f = l) : ∀ x ∈ l, f x = x :=
  List.map_inj_left.mp (h.trans (map_id l).symm)

theorem withNames_eq_self (h : pointerFactsNameTheResult f names = f) :
    (∀ r ∈ f.ranges, r.withNames names = r) ∧ ∀ a ∈ f.aparts, a.withNames names = a :=
  ⟨eq_self_of_map (congrArg PointerFacts.ranges h), eq_self_of_map (congrArg PointerFacts.aparts h)⟩

variable [DecidableEq Expr]

theorem step_oneFact {ch' : Check} (h : Step ch ch') (hone : OneFact ch) : OneFact ch' := by
  cases h with
  | change hchange =>
    have hgrow := hchange.factsGrow (hone.ranges.le _ mem_cons_self) (hone.aparts.le _ mem_cons_self)
    exact ⟨hone.ranges.cons_of_grows hgrow.ranges, hone.aparts.cons_of_grows hgrow.aparts⟩
  | nameTheResult names hfix =>
    refine ⟨hone.ranges.cons_map (fun _ => rfl) fun l hl => ?_, hone.aparts.cons_map (fun _ => rfl) fun l hl => ?_⟩
    · obtain ⟨f, hf, rfl⟩ := List.mem_map.mp hl
      exact (withNames_eq_self (hfix f hf)).1
    · obtain ⟨f, hf, rfl⟩ := List.mem_map.mp hl
      exact (withNames_eq_self (hfix f hf)).2
  | save c saved =>
    exact hone.of_cons mem_cons_self (List.Subset.refl _) (List.Subset.refl _) fun g hg => hg
  | resume hf =>
    exact hone.of_cons (mem_cons_of_mem _ hf) (List.Subset.refl _) (List.Subset.refl _) fun g hg => mem_cons_of_mem _ hg
  | join hf hg =>
    exact hone.of_cons hf (filter_subset_self _) (filter_subset_self _) fun g hg => mem_cons_of_mem _ hg
  | discard hsub =>
    exact hone.of_cons mem_cons_self (List.Subset.refl _) (List.Subset.refl _) fun g hg => mem_cons_of_mem _ (hsub hg)
  | enterBody c saved =>
    exact hone.of_cons mem_cons_self (nil_subset _) (nil_subset _) fun g hg => mem_cons_of_mem _ hg

theorem oneFact_of_reached (h : Reached ch) : OneFact ch := by
  induction h with
  | refl =>
    refine ⟨⟨fun l hl x hx => ?_, fun l hl l' hl' x hx => ?_⟩, ⟨fun l hl x hx => ?_, fun l hl l' hl' x hx => ?_⟩⟩
    all_goals
      obtain rfl := List.mem_singleton.mp hl
      cases hx
  | tail _ hstep ih => exact step_oneFact hstep ih

variable {limit : ℤ} {s : State limit}

theorem join_holds_of_first (g : PointerFacts) (h : s.Holds f) : s.Holds (f.join g) :=
  ⟨fun r hr => h.ranges r (mem_of_mem_filter hr), fun a ha => h.aparts a (mem_of_mem_filter ha),
    fun name v hv => h.entries name v (Option.filter_eq_some_iff.mp hv).1⟩

theorem join_holds_of_second (hone : OneFact ch) {g : PointerFacts} (hf : f ∈ ch.copies)
    (hg : g ∈ ch.copies) (h : s.Holds g) : s.Holds (f.join g) := by
  refine ⟨fun r hr => ?_, fun a ha => ?_, fun name v hv => ?_⟩
  · obtain ⟨hrf, hany⟩ := List.mem_filter.mp hr
    obtain ⟨o, ho, hid⟩ := List.any_eq_true.mp hany
    rw [hone.ranges.eq _ (mem_map_of_mem hf) _ (mem_map_of_mem hg) r hrf o ho (of_decide_eq_true hid).symm]
    exact h.ranges o ho
  · obtain ⟨haf, hany⟩ := List.mem_filter.mp ha
    obtain ⟨o, ho, hid⟩ := List.any_eq_true.mp hany
    rw [hone.aparts.eq _ (mem_map_of_mem hf) _ (mem_map_of_mem hg) a haf o ho (of_decide_eq_true hid).symm]
    exact h.aparts o ho
  · exact h.entries name v (of_decide_eq_true (Option.filter_eq_some_iff.mp hv).2)

/-- The facts are sound in every state: a goal that is true gives its clause, a new range leaves facts that hold, and
what a join of two copies keeps holds where one of them does. -/
theorem pointer_facts_sound (s : State limit) :
    (∀ facts clause m extra, s.Holds facts → (∀ r ∈ extra, s.RangeHolds r) →
      (pointerGoal facts clause m extra).Holds s.term → s.ClauseHolds clause m) ∧
    (∀ prove c kind base lo hi, s.Trusts prove → s.Holds c.facts →
      s.Row kind base (s.addressAt base (s.total lo)) (s.total hi - s.total lo) →
      s.Holds (addRange prove c kind base lo hi).facts) ∧
    ∀ ch : Check, Reached ch → ∀ f ∈ ch.copies, ∀ g ∈ ch.copies, s.Holds f ∨ s.Holds g → s.Holds (f.join g) := by
  refine ⟨fun facts clause m extra hfacts hextra h => clauseHolds_of_pointerGoal hfacts hextra h,
    fun prove c kind base lo hi hprove hfacts hnew => addRange_holds hprove hfacts hnew, ?_⟩
  intro ch hreached f hf g hg hholds
  rcases hholds with hholds | hholds
  · exact join_holds_of_first g hholds
  · exact join_holds_of_second (oneFact_of_reached hreached) hf hg hholds

end

def sampleState : State 1000 where
  term e := match e with
    | .number text _ => ((literalValue text).getD 0 : ℕ)
    | _ => 0
  term_zero := by decide
  term_one := by decide
  space := ⟨{⟨100, 200, by decide, by decide⟩}, fun a ha b hb _ _ _ _ _ => by rw [ha, hb]⟩
  base _ := 100
  size _ := 1
  size_nonneg _ := by decide
  align _ := 1
  align_dvd _ := Int.one_dvd 1
  hasValue _ _ := True
  pointer _ := 100

def sampleNumber (text : String) : Expr := .number text none

def sampleProve : Exact → Bool
  | .and goals => goals.all fun
    | .le a b => a.value sampleState.term ≤ b.value sampleState.term
    | _ => false
  | _ => false

theorem sampleProve_trusted : sampleState.Trusts sampleProve := by
  intro g hg
  cases g with
  | and goals =>
    rw [sampleProve, List.all_eq_true] at hg
    show Exact.AllHold sampleState.term goals
    induction goals with
    | nil => trivial
    | cons goal goals ih =>
      refine ⟨?_, ih fun g hmem => hg g (mem_cons_of_mem _ hmem)⟩
      have hgoal := hg goal mem_cons_self
      cases goal with
      | le a b => simpa [Exact.Holds] using hgoal
      | _ => cases hgoal
  | _ => cases hg

def sampleChecker : Checker :=
  let first := addRange sampleProve ⟨{}, 0⟩ .valid 7 [] [sampleNumber "6"]
  addRange sampleProve first .valid 7 [sampleNumber "5"] [sampleNumber "10"]

def sampleInit : Checker := addRange sampleProve sampleChecker .init 7 [] [sampleNumber "3"]

/-- The second row of values is merged with the first one. -/
def sampleBranch : Checker := addRange sampleProve sampleInit .init 7 [sampleNumber "3"] [sampleNumber "6"]

theorem sampleRow {kind : Kind} {lo hi : List Expr} (hlo : 0 ≤ sampleState.total lo)
    (hle : sampleState.total lo ≤ sampleState.total hi) (hhi : sampleState.total hi ≤ 100) :
    sampleState.Row kind 7 (sampleState.addressAt 7 (sampleState.total lo))
      (sampleState.total hi - sampleState.total lo) := by
  have haddress : sampleState.addressAt 7 (sampleState.total lo) = 100 + sampleState.total lo := by
    show (100 + sampleState.total lo * 1) % 1000 = _
    omega
  rw [haddress]
  cases kind with
  | valid =>
    refine ⟨by omega, by omega, Int.one_dvd _, fun _ => ⟨_, rfl, ?_, ?_⟩⟩
    · show 100 ≤ 100 + sampleState.total lo
      omega
    · show 100 + sampleState.total lo + (sampleState.total hi - sampleState.total lo) * 1 ≤ 200
      omega
  | init => exact ⟨by omega, fun _ _ _ => trivial⟩

theorem sampleChecker_holds : sampleState.Holds sampleChecker.facts := by
  refine ⟨fun r hr => ?_, fun a ha => (by cases ha), fun name v hv => (by cases hv)⟩
  rcases List.mem_cons.mp hr with rfl | hr
  · exact sampleRow (by decide) (by decide) (by decide)
  · obtain rfl := List.mem_singleton.mp hr
    exact sampleRow (by decide) (by decide) (by decide)

/-- The two ranges give ten valid elements. A branch adds two rows of values, which are merged, and the join with the facts
before the branch keeps the two ranges. -/
theorem pointer_facts_sound_sample :
    letI := Classical.decEq Expr
    sampleState.ClauseHolds (.valid ⟨7, []⟩) (sampleNumber "10") ∧
      sampleState.Holds sampleBranch.facts ∧
      sampleBranch.facts.ranges.map (fun r => (r.id, r.merged)) = [(1, false), (2, false), (3, false), (4, true)] ∧
      sampleState.Holds (sampleBranch.facts.join sampleChecker.facts) ∧
      (sampleBranch.facts.join sampleChecker.facts).ranges.map Range.id = [1, 2] := by
  let _ := Classical.decEq Expr
  have hchecker : Reached ⟨sampleChecker, []⟩ :=
    .tail (.single (.change (.addRange sampleProve .valid 7 [] [sampleNumber "6"])))
      (.change (.addRange sampleProve .valid 7 [sampleNumber "5"] [sampleNumber "10"]))
  have hreached : Reached ⟨sampleBranch, [sampleChecker.facts]⟩ :=
    ((hchecker.tail (.save _ _)).tail (.change (.addRange sampleProve .init 7 [] [sampleNumber "3"]))).tail
      (.change (.addRange sampleProve .init 7 [sampleNumber "3"] [sampleNumber "6"]))
  obtain ⟨hgoal, hadd, hjoin⟩ := pointer_facts_sound sampleState
  have hinit : sampleState.Holds sampleInit.facts :=
    hadd _ _ _ _ _ _ sampleProve_trusted sampleChecker_holds (sampleRow (by decide) (by decide) (by decide))
  have hbranch : sampleState.Holds sampleBranch.facts :=
    hadd _ _ _ _ _ _ sampleProve_trusted hinit (sampleRow (by decide) (by decide) (by decide))
  refine ⟨hgoal _ _ _ none sampleChecker_holds (fun r hr => by cases hr) ?_, hbranch, by decide,
    hjoin _ hreached _ mem_cons_self _ (mem_cons_of_mem _ mem_cons_self) (.inl hbranch), rfl⟩
  have htwo : twoRanges (sampleNumber "10") ⟨7, []⟩ ⟨1, .valid, 7, [], [sampleNumber "6"], false⟩
      ⟨2, .valid, 7, [sampleNumber "5"], [sampleNumber "10"], false⟩ |>.Holds sampleState.term := by
    simp only [twoRanges, Exact.Holds, Exact.AllHold, sum_nil_value, sum_one_value]
    decide
  have hlength : sampleState.term zero ≤ sampleState.term (sampleNumber "10") := by decide
  refine ⟨hlength, (oneHolds_iff _).mpr ⟨_, ?_, htwo⟩, trivial⟩
  exact mem_cons_of_mem _ (mem_cons_of_mem _ mem_cons_self)

end Vx.Pointer
