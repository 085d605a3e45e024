import Vx.TupleMatch.Model

namespace Vx.TupleMatch

open List
open Lib.TaggedKey (Text)

variable {S X B O : Type} {scalars : Scalars S} {observe : X → List X → Val S} {exec : B → Env S → List X → O}

mutual

def value (scalars : Scalars S) (env : Env S) : Expr X → Val S
  | .identifier name => readName scalars env name
  | .const c => .scalar (scalars.const c)
  | .memberAccess base member => (value scalars env base).field member
  | .structInit _ fields => .record (valueFields scalars env fields)
  | .other _ => .record []

def valueFields (scalars : Scalars S) (env : Env S) : List (Text × Expr X) → List (Text × Val S)
  | [] => []
  | (name, e) :: fields => (name, value scalars env e) :: valueFields scalars env fields

end

mutual

theorem evaluate_of_rereadable (env : Env S) (e : Expr X) (h : isRereadable e = true) (effects : List X) :
    evaluate scalars observe env e effects = (value scalars env e, effects) := by
  cases e with
  | identifier name => rfl
  | const c => rfl
  | memberAccess base member =>
    rw [evaluate, evaluate_of_rereadable env base (by simpa [isRereadable] using h), value]
  | structInit name fields =>
    rw [isRereadable, Bool.and_eq_true] at h
    rw [evaluate, evaluateFields_of_rereadable env fields h.2, value]
  | other x => cases h

theorem evaluateFields_of_rereadable (env : Env S) (fields : List (Text × Expr X)) (h : areRereadable fields = true)
    (effects : List X) :
    evaluateFields scalars observe env fields effects = (valueFields scalars env fields, effects) := by
  cases fields with
  | nil => rfl
  | cons field fields =>
    obtain ⟨name, e⟩ := field
    rw [areRereadable, Bool.and_eq_true] at h
    rw [evaluateFields, evaluate_of_rereadable env e h.1, evaluateFields_of_rereadable env fields h.2, valueFields]

end

mutual

def exprNames : Expr X → List Text
  | .identifier name => if isBool name then [] else [name]
  | .const _ => []
  | .memberAccess base _ => exprNames base
  | .structInit _ fields => fieldsNames fields
  | .other _ => []

def fieldsNames : List (Text × Expr X) → List Text
  | [] => []
  | (_, e) :: fields => exprNames e ++ fieldsNames fields

end

mutual

theorem value_congr {env env' : Env S} (e : Expr X) (h : ∀ n ∈ exprNames e, env n = env' n) :
    value scalars env e = value scalars env' e := by
  cases e with
  | identifier name =>
    rw [value, value, readName, readName]
    split_ifs with hbool
    · rfl
    · exact h name (by simp [exprNames, hbool])
  | const c => rfl
  | memberAccess base member => rw [value, value, value_congr base h]
  | structInit name fields => rw [value, value, valueFields_congr fields h]
  | other x => rfl

theorem valueFields_congr {env env' : Env S} (fields : List (Text × Expr X)) (h : ∀ n ∈ fieldsNames fields, env n = env' n) :
    valueFields scalars env fields = valueFields scalars env' fields := by
  cases fields with
  | nil => rfl
  | cons field fields =>
    obtain ⟨name, e⟩ := field
    rw [valueFields, valueFields, value_congr e fun n hn => h n (mem_append_left _ hn),
      valueFields_congr fields fun n hn => h n (mem_append_right _ hn)]

end

theorem extend_append (env : Env S) (l l' : List (Text × Val S)) : extend env (l ++ l') = extend (extend env l) l' := by
  induction l generalizing env with
  | nil => rfl
  | cons binding l ih => exact ih (env.set binding.1 binding.2)

theorem extend_of_not_mem (env : Env S) {l : List (Text × Val S)} {n : Text} (h : n ∉ l.map Prod.fst) :
    extend env l n = env n := by
  induction l generalizing env with
  | nil => rfl
  | cons binding l ih =>
    rw [map_cons, mem_cons, not_or] at h
    rw [extend, ih _ h.2, Env.set, if_neg h.1]

theorem extend_of_mem (env : Env S) {l : List (Text × Val S)} {n : Text} {v : Val S} (hmem : (n, v) ∈ l)
    (hunique : ∀ v', (n, v') ∈ l → v' = v) : extend env l n = v := by
  induction l generalizing env with
  | nil => cases hmem
  | cons binding l ih =>
    obtain ⟨n', v'⟩ := binding
    rw [extend]
    by_cases hin : n ∈ l.map Prod.fst
    · obtain ⟨⟨_, w⟩, hw, rfl⟩ := List.mem_map.mp hin
      have hwv := hunique w (mem_cons_of_mem _ hw)
      subst hwv
      exact ih _ hw fun v' hv' => hunique v' (mem_cons_of_mem _ hv')
    · rcases List.mem_cons.mp hmem with heq | hmem
      · cases heq
        rw [extend_of_not_mem _ hin, Env.set, if_pos rfl]
      · exact absurd (mem_map_of_mem hmem) hin

inductive Flat (X : Type)
  | test (c : Cond X)
  | variant (value : Expr X) (variant : Text) (payload : List Binder)

mutual

def flatten : Step X → List (Flat X)
  | .test c => [.test c]
  | .variant value _ v payload thens => .variant value v payload :: flattenAll thens

def flattenAll : List (Step X) → List (Flat X)
  | [] => []
  | s :: ss => flatten s ++ flattenAll ss

end

theorem flattenAll_append (ss ts : List (Step X)) : flattenAll (ss ++ ts) = flattenAll ss ++ flattenAll ts := by
  induction ss with
  | nil => rfl
  | cons s ss ih => rw [cons_append, flattenAll, flattenAll, ih, append_assoc]

def Cond.holds (scalars : Scalars S) (env : Env S) : Cond X → Bool
  | .equals lhs rhs => (value scalars env lhs).eq scalars (value scalars env rhs)
  | .hasElements _ _ => true
  | .isTrue => true

def Cond.isRereadable : Cond X → Bool
  | .equals lhs rhs => TupleMatch.isRereadable lhs && TupleMatch.isRereadable rhs
  | .hasElements _ value => TupleMatch.isRereadable value
  | .isTrue => true

def Cond.names : Cond X → List Text
  | .equals lhs rhs => exprNames lhs ++ exprNames rhs
  | .hasElements _ _ => []
  | .isTrue => []

def Flat.isRereadable : Flat X → Bool
  | .test c => c.isRereadable
  | .variant value _ _ => TupleMatch.isRereadable value

theorem Cond.evaluate_of_rereadable (env : Env S) {c : Cond X} (h : c.isRereadable = true) (effects : List X) :
    c.evaluate scalars observe env effects = (c.holds scalars env, effects) := by
  cases c with
  | equals lhs rhs =>
    rw [Cond.isRereadable, Bool.and_eq_true] at h
    rw [Cond.evaluate, TupleMatch.evaluate_of_rereadable env lhs h.1, TupleMatch.evaluate_of_rereadable env rhs h.2,
      Cond.holds]
  | hasElements n value => rw [Cond.evaluate, TupleMatch.evaluate_of_rereadable env value h, Cond.holds]
  | isTrue => rfl

theorem Cond.holds_congr {env env' : Env S} {c : Cond X} (h : ∀ n ∈ c.names, env n = env' n) :
    c.holds scalars env = c.holds scalars env' := by
  cases c with
  | equals lhs rhs =>
    rw [Cond.holds, Cond.holds, value_congr lhs fun n hn => h n (mem_append_left _ hn),
      value_congr rhs fun n hn => h n (mem_append_right _ hn)]
  | hasElements n value => rfl
  | isTrue => rfl

def runFlat (scalars : Scalars S) (env : Env S) :
    List (Flat X) → List (Text × Val S) → Except (List (Text × Val S)) (List (Text × Val S))
  | [], bound => .ok bound
  | .test c :: steps, bound =>
    if c.holds scalars (extend env bound) then runFlat scalars env steps bound else .error bound
  | .variant e v payload :: steps, bound =>
    if (value scalars (extend env bound) e).isVariant v then
      runFlat scalars env steps (bound ++ bindParts (value scalars (extend env bound) e) payload 0)
    else .error bound

def outcome (scalars : Scalars S) (observe : X → List X → Val S) (exec : B → Env S → List X → O) (env : Env S)
    (fallback body : Code X B) (effects : List X) : Except (List (Text × Val S)) (List (Text × Val S)) → O
  | .ok bound => body.run scalars observe exec (extend env bound) effects
  | .error bound => fallback.run scalars observe exec (extend env bound) effects

theorem evaluateAll_of_rereadable (env : Env S) {cs : List (Cond X)} (h : ∀ c ∈ cs, c.isRereadable = true)
    (effects : List X) : evaluateAll scalars observe env cs effects = (cs.all (Cond.holds scalars env), effects) := by
  induction cs with
  | nil => rfl
  | cons c cs ih =>
    rw [evaluateAll, Cond.evaluate_of_rereadable env (h c mem_cons_self),
      ih fun c hc => h c (mem_cons_of_mem _ hc), all_cons]
    cases c.holds scalars env <;> rfl

theorem runFlat_tests (env : Env S) (cs : List (Cond X)) (steps : List (Flat X)) (bound : List (Text × Val S)) :
    runFlat scalars env (cs.map Flat.test ++ steps) bound =
      if cs.all (Cond.holds scalars (extend env bound)) then runFlat scalars env steps bound else .error bound := by
  induction cs with
  | nil => rfl
  | cons c cs ih =>
    rw [map_cons, cons_append, runFlat, ih, all_cons]
    cases c.holds scalars (extend env bound) <;> rfl

theorem flattenAll_takeWhile (ss : List (Step X)) :
    flattenAll ss = ((ss.takeWhile fun s => s.cond.isSome).filterMap Step.cond).map Flat.test ++
      flattenAll (ss.dropWhile fun s => s.cond.isSome) := by
  induction ss with
  | nil => rfl
  | cons s ss ih =>
    cases s with
    | test c =>
      rw [flattenAll, ih]
      rfl
    | variant _ _ _ _ _ => rfl

theorem run_buildSteps (env : Env S) (fallback body : Code X B) (steps : List (Step X))
    (h : ∀ f ∈ flattenAll steps, f.isRereadable = true) (bound : List (Text × Val S)) (effects : List X) :
    (buildSteps fallback body steps).run scalars observe exec (extend env bound) effects =
      outcome scalars observe exec env fallback body effects (runFlat scalars env (flattenAll steps) bound) := by
  induction steps using buildSteps.induct generalizing bound with
  | case1 => rw [buildSteps]; rfl
  | case2 c steps ih =>
    have hflat : flattenAll (.test c :: steps) =
        (c :: (steps.takeWhile fun s => s.cond.isSome).filterMap Step.cond).map Flat.test ++
          flattenAll (steps.dropWhile fun s => s.cond.isSome) := by
      rw [flattenAll, flattenAll_takeWhile steps]
      rfl
    rw [hflat] at h ⊢
    have htests : ∀ c' ∈ c :: (steps.takeWhile fun s => s.cond.isSome).filterMap Step.cond, c'.isRereadable = true :=
      fun c' hc' => h (.test c') (mem_append_left _ (mem_map_of_mem hc'))
    have hrest := ih fun f hf => h f (mem_append_right _ hf)
    rw [buildSteps, Code.run, evaluateAll_of_rereadable _ htests, runFlat_tests]
    dsimp only
    split_ifs
    · exact hrest bound
    · rfl
  | case3 e en v payload thens steps ih =>
    have hflat : flattenAll (.variant e en v payload thens :: steps) =
        .variant e v payload :: flattenAll (thens ++ steps) := by
      rw [flattenAll_append, flattenAll, flatten, cons_append]
    rw [hflat] at h ⊢
    have hvalue : isRereadable e = true := h (.variant e v payload) mem_cons_self
    have hrest := ih fun f hf => h f (mem_cons_of_mem _ hf)
    rw [buildSteps, Code.run, evaluate_of_rereadable _ e hvalue, runFlat]
    dsimp only
    split_ifs
    · rw [← extend_append]
      exact hrest _
    · rfl

end Vx.TupleMatch
