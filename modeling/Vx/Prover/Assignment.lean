import Vx.Prover.Meaning

namespace Vx.Prover

open Option AList

variable {s s' inner inner' : State} {x old : String} {int : ElementType} {v : Value} {e : Expr} {calls : Calls}

structure AgreeOn (e : Expr) (s s' : State) : Prop where
  typeOf : ∀ name, reads name e = true → s.typeOf name = s'.typeOf name
  value : ∀ name, reads name e = true → s.value name = s'.value name

theorem AgreeOn.mono {e e' : Expr} (h : AgreeOn e s s') (hsub : ∀ name, reads name e' = true → reads name e = true) :
    AgreeOn e' s s' :=
  ⟨fun name hn => h.typeOf name (hsub name hn), fun name hn => h.value name (hsub name hn)⟩

theorem intType_congr : ∀ e, AgreeOn e s s' → intType s e = intType s' e := by
  intro e
  fun_induction intType s e with
  | case1 => simp
  | case2 name => exact fun h => h.typeOf name (by simp)
  | case3 lhs op rhs ty ih₁ ih₂ =>
    intro h
    rw [intType, ih₁ (h.mono fun _ hn => by simp [hn]), ih₂ (h.mono fun _ hn => by simp [hn])]
  | case4 op e ih =>
    intro h
    rw [intType, ih (h.mono fun _ hn => by simp [hn])]
  | case5 => simp
  | case6 => simp

theorem evalWith_congr (s s' : State) (calls : Calls) (expected : Option ElementType) (e : Expr) :
    AgreeOn e s s' → AgreeOn e inner inner' →
      evalWith inner s calls expected e = evalWith inner' s' calls expected e := by
  fun_induction evalWith inner s calls expected e generalizing s' with
  | case1 => simp
  | case2 s _ _ name => exact fun h _ => by rw [evalWith, h.value name (by simp)]
  | case3 => simp
  | case4 s _ expected lhs op rhs operandTy ty ih₁ ih₂ =>
    intro h hi
    rw [evalWith, ← intType_congr _ h, ih₁ s' (h.mono (by grind [reads])) (hi.mono (by grind [reads])),
      ih₂ s' (h.mono (by grind [reads])) (hi.mono (by grind [reads]))]
  | case5 s _ _ lhs op rhs operandTy side ih₁ ih₂ =>
    intro h hi
    have hl : AgreeOn lhs s s' := h.mono (by grind [reads])
    have hr : AgreeOn rhs s s' := h.mono (by grind [reads])
    rw [evalWith, ← intType_congr _ hl, ← intType_congr _ hr, ih₁ s' hl (hi.mono (by grind [reads])),
      ih₂ s' hr (hi.mono (by grind [reads]))]
  | case6 s _ _ lhs op rhs ih₁ ih₂ | case9 s _ _ lhs rhs ih₁ ih₂ =>
    intro h hi
    rw [evalWith, ih₁ s' (h.mono (by grind [reads])) (hi.mono (by grind [reads])),
      ih₂ s' (h.mono (by grind [reads])) (hi.mono (by grind [reads]))]
  | case7 s _ expected op e operandExpected ih =>
    intro h hi
    have he : AgreeOn e s s' := h.mono (by grind [reads])
    rw [evalWith, ← intType_congr _ he, ih s' he (hi.mono (by grind [reads]))]
  | case8 s _ _ base member ih =>
    intro h hi
    rw [evalWith, ih s' (h.mono (by grind [reads])) (hi.mono (by grind [reads]))]
  | case10 _ _ _ e targetTy sourceTy hkeep ih =>
    intro _ hi
    have he : AgreeOn e inner inner' := hi.mono (by grind [reads])
    rw [evalWith, if_pos hkeep, ih inner' he he]
  | case11 _ _ _ e targetTy sourceTy hkeep =>
    intro _ _
    rw [evalWith, if_neg hkeep]
  | case12 => simp

theorem reads_imp_mentions (name : String) (e : Expr) : reads name e = true → exprMentions name e = true := by
  fun_induction reads name e with
  | case1 => simp [exprMentions]
  | case2 lhs _ rhs _ ih₁ ih₂ | case3 lhs _ rhs _ ih₁ ih₂ | case4 lhs _ rhs ih₁ ih₂ | case7 lhs rhs ih₁ ih₂ =>
    simp only [exprMentions, Bool.or_eq_true]
    exact Or.imp ih₁ ih₂
  | case5 _ e ih | case6 e _ ih | case8 e _ _ ih => simpa only [exprMentions] using ih
  | case9 => simp

def renameTo (x old : String) : Names := AList.insert x (.identifier old) ∅

theorem substitute_self (x old : String) : substituteNames (renameTo x old) (.identifier x) = .identifier old := by
  rw [substituteNames, renameTo, lookup_insert, getD_some]

theorem substitute_other {name : String} (h : name ≠ x) :
    substituteNames (renameTo x old) (.identifier name) = .identifier name := by
  rw [substituteNames, renameTo, lookup_insert_ne h, lookup_empty, getD_none]

theorem isNumber_substitute (e : Expr) : isNumber (substituteNames (renameTo x old) e) = isNumber e := by
  cases e with
  | identifier name =>
    by_cases h : name = x
    · rw [h, substitute_self]
      rfl
    · rw [substitute_other h]
  | _ => rfl

theorem intType_substitute (hx : s.typeOf x = some int) (e : Expr) (hfresh : reads old e = false) :
    intType (s.assign x old int v) (substituteNames (renameTo x old) e) = intType s e := by
  fun_induction intType s e with
  | case1 => rfl
  | case2 name =>
    have hname : name ≠ old := by simpa using hfresh
    by_cases h : name = x
    · rw [h, substitute_self]
      simp [State.assign, hx]
    · rw [substitute_other h]
      simp [State.assign, hname]
  | case3 lhs op rhs ty ih₁ ih₂ =>
    obtain ⟨hl, hr⟩ : reads old lhs = false ∧ reads old rhs = false := by simpa using hfresh
    rw [substituteNames, intType, ih₁ hl, ih₂ hr]
  | case4 op e ih =>
    rw [substituteNames, intType, ih (by simpa using hfresh)]
  | case5 => rfl
  | case6 e h₁ h₂ h₃ h₄ h₅ =>
    cases e <;> grind [substituteNames, intType]

theorem agreeOn_assign (hold : reads old e = false) : AgreeOn e (s.assign x old int v) (s.set x v) := by
  have hne : ∀ name, reads name e = true → name ≠ old := by
    rintro name hn rfl
    simp [hold] at hn
  refine ⟨fun name hn => ?_, fun name hn => ?_⟩
  · simp [State.assign, State.set, hne name hn]
  · simp [State.assign, State.set, hne name hn]

theorem eval_substitute (hx : s.typeOf x = some int) (e : Expr) (expected : Option ElementType)
    (hfresh : reads old e = false) : (s.assign x old int v).eval calls expected (substituteNames (renameTo x old) e) =
      evalWith (s.set x v) s calls expected e := by
  unfold State.eval
  fun_induction substituteNames (renameTo x old) e generalizing calls expected with
  | case1 name =>
    have hname : name ≠ old := by simpa using hfresh
    rw [← substituteNames]
    by_cases h : name = x
    · rw [h, substitute_self]
      simp [State.assign]
    · rw [substitute_other h]
      simp [State.assign, hname, h]
  | case2 lhs op rhs ty ih₁ ih₂ =>
    obtain ⟨hl, hr⟩ : reads old lhs = false ∧ reads old rhs = false := by simpa using hfresh
    have hty := intType_substitute (v := v) hx (.binaryOp lhs op rhs ty) hfresh
    rw [substituteNames] at hty
    rw [evalWith, evalWith, hty, ih₁ _ hl, ih₂ _ hr]
  | case3 lhs op rhs ty ih₁ ih₂ =>
    obtain ⟨hl, hr⟩ : reads old lhs = false ∧ reads old rhs = false := by simpa using hfresh
    rw [evalWith, evalWith, intType_substitute hx lhs hl, intType_substitute hx rhs hr, ih₁ _ hl, ih₂ _ hr]
  | case4 lhs op rhs ih₁ ih₂ =>
    obtain ⟨hl, hr⟩ : reads old lhs = false ∧ reads old rhs = false := by simpa using hfresh
    rw [evalWith, evalWith, ih₁ _ hl, ih₂ _ hr]
  | case5 op e ih =>
    have he : reads old e = false := by simpa using hfresh
    rw [evalWith, evalWith, isNumber_substitute, intType_substitute hx e he, ih _ he]
  | case6 base member ih =>
    rw [evalWith, evalWith, ih _ (by simpa using hfresh)]
  | case7 base index ih₁ ih₂ =>
    obtain ⟨hb, hi⟩ : reads old base = false ∧ reads old index = false := by simpa using hfresh
    rw [evalWith, evalWith, ih₁ _ hb, ih₂ _ hi]
  | case8 e h₁ h₂ h₃ h₄ h₅ h₆ h₇ =>
    cases e with
    | asCast e targetTy sourceTy =>
      have he : reads old e = false := by simpa using hfresh
      have hagree : AgreeOn e (s.assign x old int v) (s.set x v) := agreeOn_assign he
      rw [evalWith, evalWith, evalWith_congr _ _ _ _ _ hagree hagree]
    | _ => grind [evalWith, State.assign]

theorem set_agreeOn (hx : reads x e = false) : AgreeOn e (s.set x v) s := by
  refine ⟨fun _ _ => rfl, fun name hn => ?_⟩
  have hne : name ≠ x := by
    rintro rfl
    simp [hx] at hn
  simp [State.set, hne]

theorem evalWith_set (e : Expr) (expected : Option ElementType)
    (hm : exprMentions x (substituteNames (renameTo x old) e) = false) :
    evalWith (s.set x v) s calls expected e = s.eval calls expected e := by
  unfold State.eval
  fun_induction substituteNames (renameTo x old) e generalizing calls expected with
  | case1 name => rfl
  | case2 lhs op rhs ty ih₁ ih₂ | case3 lhs op rhs ty ih₁ ih₂ | case4 lhs op rhs ih₁ ih₂ | case7 lhs rhs ih₁ ih₂ =>
    simp only [exprMentions, Bool.or_eq_false_iff] at hm
    rw [evalWith, evalWith, ih₁ _ hm.1, ih₂ _ hm.2]
  | case5 op e ih | case6 e member ih =>
    rw [evalWith, evalWith, ih _ hm]
  | case8 e h₁ h₂ h₃ h₄ h₅ h₆ h₇ =>
    cases e with
    | asCast e targetTy sourceTy =>
      simp only [exprMentions] at hm
      have hr : reads x e = false := by
        by_contra hc
        simp [reads_imp_mentions x e (by simpa using hc)] at hm
      rw [evalWith, evalWith, evalWith_congr _ _ _ _ _ (set_agreeOn hr) (set_agreeOn hr)]
    | _ => grind [evalWith]

theorem noFact_holds (s : State) (calls : Calls) : s.Holds calls noFact := by
  simp [State.Holds, State.eval, noFact, compare, show literalValue "0" = some 0 by decide]

theorem renameFact_holds {fact : Expr} (hx : s.typeOf x = some int) (hold : reads old fact = false)
    (h : s.Holds calls fact) : (s.assign x old int v).Holds calls (Checker.renameFact x (renameTo x old) fact) := by
  by_cases hm : exprMentions x fact = true
  · by_cases hm' : exprMentions x (substituteNames (renameTo x old) fact) = true
    · simp only [Checker.renameFact, hm, hm', ↓reduceIte]
      exact noFact_holds _ _
    · simp only [Checker.renameFact, hm, hm', ↓reduceIte, Bool.false_eq_true]
      rw [State.Holds, eval_substitute hx fact none hold, evalWith_set fact none (by simpa using hm')]
      exact h
  · have hr : reads x fact = false := by
      by_contra hc
      exact hm (reads_imp_mentions x fact (by simpa using hc))
    have hassign : AgreeOn fact (s.assign x old int v) (s.set x v) := agreeOn_assign hold
    simp only [Checker.renameFact, hm, Bool.false_eq_true, ↓reduceIte]
    rw [State.Holds, State.eval, evalWith_congr _ _ _ _ _ hassign hassign,
      evalWith_congr _ _ _ _ _ (set_agreeOn hr) (set_agreeOn hr)]
    exact h

theorem newFact_holds_iff {n : ℤ} (calls : Calls) (hx : s.typeOf x = some int) (hne : x ≠ old) (hold : reads old e = false) :
    (s.assign x old int (.int n)).Holds calls
        (.relationalOp (.identifier x) .eq (substituteNames (renameTo x old) e) none) ↔
      evalWith (s.set x (.int n)) s (calls.below true) (some int) e = some (.int n) := by
  have htype : intType (s.assign x old int (.int n)) (.identifier x) = some int := by
    simp [State.assign, hne, hx]
  have hvalue : evalWith (s.assign x old int (.int n)) (s.assign x old int (.int n)) (calls.below false) (some int)
      (.identifier x) = some (.int n) := by
    simp [State.assign, hne]
  have hrhs : evalWith (s.assign x old int (.int n)) (s.assign x old int (.int n)) (calls.below true) (some int)
      (substituteNames (renameTo x old) e) = evalWith (s.set x (.int n)) s (calls.below true) (some int) e :=
    eval_substitute hx e (some int) hold
  rw [State.Holds, State.eval, evalWith, htype]
  simp only [none_or, some_or, hvalue, hrhs]
  cases evalWith (s.set x (.int n)) s (calls.below true) (some int) e with
  | none => simp
  | some w =>
    cases w with
    | int m => simp [compare, eq_comm]
    | _ => simp [compare]

section
variable {c : Checker} {op : Option BinaryOp} {rhs : Expr}

theorem assign_constraints (hint : intOf (.scalar int) = some int) (hframes : c.factChangeFrames = [])
    (hmodelled : isModelled (Checker.assigned x (.scalar int) op rhs) = true) :
    (c.assign x (.scalar int) op rhs).constraints =
      c.constraints.map (Checker.renameFact x (renameTo x (oldName c.oldValues.length))) ++
        [.relationalOp (.identifier x) .eq (substituteNames (renameTo x (oldName c.oldValues.length))
          (Checker.assigned x (.scalar int) op rhs)) none] := by
  simp [Checker.assign, Checker.nameTheOldValue, hint, hframes, Checker.factOfAnAssignment, hmodelled, renameTo]

theorem assign_constraints_in_call (hframes : c.factChangeFrames ≠ []) :
    (c.assign x (.scalar int) op rhs).constraints = c.constraints := by
  obtain ⟨frame, frames, hf⟩ := List.exists_cons_of_ne_nil hframes
  cases hint : intOf (.scalar int) <;>
    simp [Checker.assign, Checker.nameTheOldValue, hint, hf, Checker.noteAChangeToVariable]

theorem set_holds {fact : Expr} (hx : reads x fact = false ∨ s.value x = some v) (h : s.Holds calls fact) :
    (s.set x v).Holds calls fact := by
  have hagree : AgreeOn fact (s.set x v) s := by
    rcases hx with hx | hx
    · exact set_agreeOn hx
    · refine ⟨fun _ _ => rfl, fun name _ => ?_⟩
      by_cases hname : name = x
      · simp [State.set, hname, hx]
      · simp [State.set, hname]
  rw [State.Holds, State.eval, evalWith_congr _ _ _ _ _ hagree hagree]
  exact h

/-- The facts after an assignment hold exactly when the cast parts of the right-hand side have the same value for the new
value of `x`. Inside the arguments of a call the facts about `x` do not end yet, so there they hold when no fact reads `x`,
or `x` keeps its value. The calls in a fact are those at its place in the list. -/
theorem assign_facts_hold {n : ℤ} (calls : ℕ → Calls) (hint : intOf (.scalar int) = some int) (hx : s.typeOf x = some int)
    (hmodelled : isModelled (Checker.assigned x (.scalar int) op rhs) = true)
    (hname : x ≠ oldName c.oldValues.length)
    (hfresh : ∀ fact ∈ c.constraints, reads (oldName c.oldValues.length) fact = false)
    (hrhs : reads (oldName c.oldValues.length) (Checker.assigned x (.scalar int) op rhs) = false)
    (hfacts : ∀ i fact, c.constraints[i]? = some fact → s.Holds (calls i) fact)
    (hvalue : s.eval ((calls c.constraints.length).below true) (some int) (Checker.assigned x (.scalar int) op rhs) =
      some (.int n)) :
    (c.factChangeFrames = [] →
      ((∀ i fact, (c.assign x (.scalar int) op rhs).constraints[i]? = some fact →
          (s.assign x (oldName c.oldValues.length) int (.int n)).Holds (calls i) fact) ↔
        evalWith (s.set x (.int n)) s ((calls c.constraints.length).below true) (some int)
            (Checker.assigned x (.scalar int) op rhs) =
          s.eval ((calls c.constraints.length).below true) (some int) (Checker.assigned x (.scalar int) op rhs))) ∧
    (c.factChangeFrames ≠ [] → ((∀ fact ∈ c.constraints, reads x fact = false) ∨ s.value x = some (.int n)) →
      ∀ i fact, (c.assign x (.scalar int) op rhs).constraints[i]? = some fact →
        (s.assign x (oldName c.oldValues.length) int (.int n)).Holds (calls i) fact) := by
  refine ⟨fun hframes => ?_, fun hframes hkeeps i fact hfact => ?_⟩
  · have hnew := newFact_holds_iff (n := n) (calls c.constraints.length) hx hname hrhs
    rw [hvalue, assign_constraints hint hframes hmodelled]
    constructor
    · exact fun h => hnew.mp (h c.constraints.length _ (by simp))
    · intro h i fact hfact
      rcases Nat.lt_trichotomy i c.constraints.length with hi | rfl | hi
      · rw [List.getElem?_append_left (by simpa using hi), List.getElem?_map, Option.map_eq_some_iff] at hfact
        obtain ⟨fact, hget, rfl⟩ := hfact
        exact renameFact_holds hx (hfresh fact (List.mem_of_getElem? hget)) (hfacts i fact hget)
      · simp only [List.length_map, List.getElem?_append_right, le_refl, Nat.sub_self, List.getElem?_cons_zero,
          Option.some.injEq] at hfact
        rw [← hfact]
        exact hnew.mpr h
      · rw [List.getElem?_eq_none (by simp; omega)] at hfact
        cases hfact
  · rw [assign_constraints_in_call hframes] at hfact
    have hmem := List.mem_of_getElem? hfact
    have hagree : AgreeOn fact (s.assign x (oldName c.oldValues.length) int (.int n)) (s.set x (.int n)) :=
      agreeOn_assign (hfresh fact hmem)
    rw [State.Holds, State.eval, evalWith_congr _ _ _ _ _ hagree hagree]
    exact set_holds (hkeeps.imp_left fun hreads => hreads fact hmem) (hfacts i fact hfact)

end

def i64Names : State where
  typeOf := fun _ => some .i64
  value := fun _ => some (.int 0)

theorem literalValue_one : literalValue "1" = some 1 := by decide

theorem wrap_one : wrap 1 (some .i64) = some 1 := by decide

def plusNext : Expr := .binaryOp (.identifier "x") .add (.functionCall "next" []) (some .i64)

/-- The call in `x == next()` returned `0`, and the one in the statement returned `1`. -/
def nextCalls : ℕ → Calls
  | 2, _ => some (.int 1)
  | _, _ => some (.int 0)

def nextFacts : List Expr :=
  [.relationalOp (.identifier "y") .eq (.identifier "x") none,
    .relationalOp (.identifier "x") .eq (.functionCall "next" []) none]

/-- After `x = next(); let y = x; x = x + next();` the fact `y == x` is about the old value. -/
theorem assign_facts_hold_next :
    i64Names.eval ((nextCalls 2).below true) (some .i64) plusNext = some (.int 1) ∧
    ∀ i fact, ((⟨nextFacts, [], []⟩ : Checker).assign "x" (.scalar .i64) none plusNext).constraints[i]? = some fact →
      (i64Names.assign "x" (oldName 0) .i64 (.int 1)).Holds (nextCalls i) fact := by
  have hvalue : i64Names.eval ((nextCalls 2).below true) (some .i64) plusNext = some (.int 1) := by
    simp [State.eval, i64Names, plusNext, nextCalls, Calls.below, binary, arith, wrap_one]
  refine ⟨hvalue, ((assign_facts_hold nextCalls rfl rfl ?_ ?_ ?_ ?_ ?_ hvalue).1 rfl).mpr ?_⟩
  · decide
  · decide
  · simp [nextFacts, show oldName 0 = "$old_0" by decide]
  · decide
  · intro i fact hfact
    match i with
    | 0 | 1 =>
      cases hfact
      simp [State.Holds, State.eval, i64Names, nextCalls, Calls.below, compare]
    | _ + 2 => cases hfact
  · simp [Checker.assigned, plusNext, State.eval, State.set]

def castPlusOne : Expr :=
  .binaryOp (.asCast (.identifier "x") (.scalar .i64) (some (.scalar .i64))) .add (.number "1" none) (some .i64)

theorem castPlusOne_fact_false {s : State} (calls : Calls) (hx : s.typeOf "x" = some .i64) :
    ¬s.Holds calls (.relationalOp (.identifier "x") .eq castPlusOne none) := by
  have hkeep : keepsEveryValue (.scalar .i64) (some (.scalar .i64)) = true := by decide
  simp only [State.Holds, State.eval, castPlusOne, evalWith, intType, hkeep, hx, literalValue_one, ↓reduceIte]
  cases s.value "x" with
  | none => simp
  | some v =>
    cases v with
    | int m =>
      simp [binary, arith, wrap, compare, ElementType.isFloat, ElementType.intBits, ElementType.isSignedInt]
      omega
    | _ => simp [binary]

/-- The statement `x = x as i64 + 1` records `x == x as i64 + 1`, which is true in no state. -/
theorem assign_castPlusOne_contradicts :
    isModelled castPlusOne = true ∧ (∀ calls, i64Names.eval calls (some .i64) castPlusOne = some (.int 1)) ∧
      ∃ fact ∈ ((⟨[], [], []⟩ : Checker).assign "x" (.scalar .i64) none castPlusOne).constraints,
        ∀ (s : State) (calls : Calls), s.typeOf "x" = some .i64 → ¬s.Holds calls fact := by
  refine ⟨by decide, fun calls => ?_, .relationalOp (.identifier "x") .eq castPlusOne none, ?_, ?_⟩
  · have hkeep : keepsEveryValue (.scalar .i64) (some (.scalar .i64)) = true := by decide
    simp [State.eval, castPlusOne, i64Names, binary, arith, hkeep, literalValue_one, wrap_one]
  · exact List.mem_singleton_self _
  · exact fun s calls hx => castPlusOne_fact_false calls hx

end Vx.Prover
