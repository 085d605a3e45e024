import Vx.TupleMatch.Hygiene

namespace Vx.TupleMatch

open List Option
open Lib.TaggedKey (Text)
open Lib.Fallible (bind_eq_ok)

variable {S X B O : Type} {scalars : Scalars S} {observe : X → List X → Val S} {exec : B → Env S → List X → O}

structure Built (steps : List (Step X)) (lets : List (Text × Expr X)) : Prop where
  rereadable : ∀ f ∈ flattenAll steps, f.isRereadable = true
  temps : ∀ f ∈ flattenAll steps, ∀ n ∈ f.binders, isTemp n = true → ∃ i, n = payloadTemp i
  lets : ∀ l ∈ lets, isRereadable l.2 = true

theorem Built.nil : Built ([] : List (Step X)) [] :=
  ⟨fun _ h => (by cases h), fun _ h => (by cases h), fun _ h => (by cases h)⟩

theorem Built.append {steps steps' : List (Step X)} {lets lets' : List (Text × Expr X)} (h : Built steps lets)
    (h' : Built steps' lets') : Built (steps ++ steps') (lets ++ lets') := by
  refine ⟨fun f hf => ?_, fun f hf => ?_, fun l hl => ?_⟩
  · rw [flattenAll_append, mem_append] at hf
    exact hf.elim (h.rereadable f) (h'.rereadable f)
  · rw [flattenAll_append, mem_append] at hf
    exact hf.elim (h.temps f) (h'.temps f)
  · exact (List.mem_append.mp hl).elim (h.lets l) (h'.lets l)

theorem Built.test {c : Cond X} (hc : c.isRereadable = true) : Built [.test c] [] := by
  refine ⟨fun f hf => ?_, fun f hf n hn => ?_, fun _ h => by cases h⟩
  · obtain rfl := List.mem_singleton.mp hf
    exact hc
  · obtain rfl := List.mem_singleton.mp hf
    cases hn

theorem Built.variant {e : Expr X} {en v : Text} {payload : List Binder} {thens : List (Step X)}
    {lets : List (Text × Expr X)} (he : isRereadable e = true)
    (hpayload : ∀ n ∈ binderNames payload, isTemp n = true → ∃ i, n = payloadTemp i) (h : Built thens lets) :
    Built [.variant e en v payload thens] lets := by
  have hflat : flattenAll [.variant e en v payload thens] = .variant e v payload :: flattenAll thens := append_nil _
  refine ⟨fun f hf => ?_, fun f hf => ?_, h.lets⟩
  · rw [hflat] at hf
    rcases List.mem_cons.mp hf with rfl | hf
    · exact he
    · exact h.rereadable f hf
  · rw [hflat] at hf
    rcases List.mem_cons.mp hf with rfl | hf
    · exact hpayload
    · exact h.temps f hf

mutual

theorem plain_built (p : Pattern) (e : Expr X) (k : ℕ) (hp : p.IsSource) (he : isRereadable e = true) :
    Built (plainSteps p e k).1 (plainSteps p e k).2.1 := by
  cases p with
  | wildcard => exact Built.nil
  | literal c =>
    refine Built.test ?_
    rw [Cond.isRereadable, he]
    rfl
  | identifier n =>
    rw [plainSteps]
    split_ifs
    · refine Built.test ?_
      rw [Cond.isRereadable, he]
      rfl
    · refine ⟨fun _ h => (by cases h), fun _ h => (by cases h), fun l hl => ?_⟩
      obtain rfl := List.mem_singleton.mp hl
      exact he
  | unitVariant en v => exact Built.variant he (fun _ h => by cases h) Built.nil
  | enumVariant en v payload =>
    refine Built.variant he (fun n hn htemp => ?_) (payload_built payload k hp)
    obtain ⟨i, _, _, heq⟩ := payloadSteps_temps hp k n hn htemp
    exact ⟨i, heq⟩

theorem payload_built (ps : List Pattern) (k : ℕ) (hps : Pattern.AreSource ps) :
    Built (payloadSteps (X := X) ps k).2.1 (payloadSteps (X := X) ps k).2.2.1 := by
  cases ps with
  | nil => exact Built.nil
  | cons p ps =>
    rw [payloadSteps]
    cases binderOf p with
    | some b => exact payload_built ps k hps.2
    | none => exact (plain_built p _ (k + 1) hps.1 rfl).append (payload_built ps _ hps.2)

end

mutual

theorem arm_built (p : ArmPattern) (e : Expr X) (k : ℕ) {r : List (Step X) × List (Text × Expr X) × ℕ}
    (hr : armSteps p e k = .ok r) (hp : p.IsSource) (hpos : Positional e) (he : isRereadable e = true) :
    Built r.1 r.2.1 := by
  cases p with
  | tuple elems => exact elem_built elems e 0 k hr hp hpos he
  | plain p =>
    cases hr
    exact plain_built p e k hp he

theorem elem_built (ps : List ArmPattern) (e : Expr X) (i k : ℕ) {r : List (Step X) × List (Text × Expr X) × ℕ}
    (hr : elemSteps ps e i k = .ok r) (hps : ArmPattern.AreSource ps) (hpos : Positional e)
    (he : isRereadable e = true) : Built r.1 r.2.1 := by
  cases ps with
  | nil =>
    cases hr
    exact Built.nil
  | cons p ps =>
    obtain ⟨e', here, rest, hget, hhere, hrest, rfl⟩ := elemSteps_cons hr
    have helem := element_isElement hpos hget
    have hfirst := arm_built p e' k hhere hps.1 helem.positional (helem.rereadable he)
    have hlater := elem_built ps e (i + 1) here.2.2 hrest hps.2 hpos he
    exact hfirst.append hlater

end

mutual

def Pattern.names : Pattern → List Text
  | .identifier n => if isBool n then [] else [n]
  | .enumVariant _ _ payload => Pattern.allNames payload
  | _ => []

def Pattern.allNames : List Pattern → List Text
  | [] => []
  | p :: ps => p.names ++ Pattern.allNames ps

end

mutual

def ArmPattern.names : ArmPattern → List Text
  | .tuple elems => ArmPattern.allNames elems
  | .plain p => p.names

def ArmPattern.allNames : List ArmPattern → List Text
  | [] => []
  | p :: ps => p.names ++ ArmPattern.allNames ps

end

theorem names_of_bind {here there : Option (List (Text × Val S))} {names names' : List Text}
    (h : ∀ b ∈ here, b.map Prod.fst = names) (h' : ∀ b ∈ there, b.map Prod.fst = names') :
    ∀ b ∈ here.bind fun b => there.map (b ++ ·), b.map Prod.fst = names ++ names' := by
  intro b hb
  obtain ⟨first, hfirst, hb⟩ := Option.bind_eq_some_iff.mp hb
  obtain ⟨second, hsecond, rfl⟩ := Option.map_eq_some_iff.mp hb
  rw [map_append, h first hfirst, h' second hsecond]

theorem names_of_ite {c : Prop} [Decidable c] {m : Option (List (Text × Val S))} {names : List Text}
    (h : ∀ b ∈ m, b.map Prod.fst = names) : ∀ b ∈ (if c then m else none), b.map Prod.fst = names := by
  intro b hb
  split_ifs at hb
  · exact h b hb
  · cases hb

theorem names_of_some (b : List (Text × Val S)) : ∀ b' ∈ some b, b'.map Prod.fst = b.map Prod.fst := by
  intro b' hb'
  cases hb'
  rfl

mutual

theorem matchPattern_names (p : Pattern) (v : Val S) : ∀ b ∈ matchPattern scalars p v, b.map Prod.fst = p.names := by
  cases p with
  | wildcard => exact names_of_some []
  | literal c | unitVariant en name => exact names_of_ite (names_of_some [])
  | identifier n =>
    rw [matchPattern, Pattern.names]
    by_cases hbool : isBool n = true
    · rw [if_pos hbool, if_pos hbool]
      exact names_of_ite (names_of_some [])
    · rw [if_neg hbool, if_neg hbool]
      exact names_of_some [(n, v)]
  | enumVariant en name payload => exact names_of_ite (matchPayload_names payload v 0)

theorem matchPayload_names (ps : List Pattern) (v : Val S) (i : ℕ) :
    ∀ b ∈ matchPayload scalars ps v i, b.map Prod.fst = Pattern.allNames ps := by
  cases ps with
  | nil => exact names_of_some []
  | cons p ps => exact names_of_bind (matchPattern_names p _) (matchPayload_names ps v (i + 1))

end

mutual

theorem matchArm_names (p : ArmPattern) (v : Val S) : ∀ b ∈ matchArm scalars p v, b.map Prod.fst = p.names := by
  cases p with
  | tuple elems => exact matchElems_names elems v 0
  | plain p => exact matchPattern_names p v

theorem matchElems_names (ps : List ArmPattern) (v : Val S) (i : ℕ) :
    ∀ b ∈ matchElems scalars ps v i, b.map Prod.fst = ArmPattern.allNames ps := by
  cases ps with
  | nil => exact names_of_some []
  | cons p ps => exact names_of_bind (matchArm_names p _) (matchElems_names ps v (i + 1))

end

section

/-- No arm has a name twice, and no step, `let` or body reads a name that is hidden there: by a step or `let` before it
in the arm, or by a step of an arm above that can pass before another one fails. -/
def clearArms (reads : B → List Text) (value : Expr X) : List (ArmPattern × B) → ℕ → List Text → Bool
  | [], _, _ => true
  | (p, body) :: arms, k, hidden =>
    match armSteps p value k with
    | .error _ => true
    | .ok (steps, lets, k') =>
      decide p.names.Nodup && clearSteps hidden (flattenAll steps) &&
        clearLets (hidden ++ boundNames (flattenAll steps)) lets &&
        (reads body).all (fun n => n ∉ hidden || n ∈ p.names) &&
        clearArms reads value arms k' (hidden ++ exposed (flattenAll steps))

def Shadows (hidden : List Text) (env₀ env : Env S) : Prop :=
  ∀ n, n ∉ hidden → (∀ i, n ≠ payloadTemp i) → env n = env₀ n

theorem boundNames_cons (f : Flat X) (steps : List (Flat X)) :
    boundNames (f :: steps) = sourceNames f.binders ++ boundNames steps := filter_append _ _

variable {env : Env S}

theorem ideal_names {steps : List (Flat X)} {env' : Env S} {named : List (Text × Val S)}
    (h : ideal scalars steps env = some (env', named)) : named.map Prod.fst = boundNames steps := by
  induction steps generalizing env named with
  | nil =>
    cases h
    rfl
  | cons step steps ih =>
    cases step with
    | test c =>
      rw [ideal] at h
      split_ifs at h
      exact ih h
    | variant e v payload =>
      rw [ideal] at h
      split_ifs at h
      obtain ⟨⟨env₂, later⟩, hlater, heq⟩ := Option.map_eq_some_iff.mp h
      cases heq
      rw [map_append, sources_bindParts_names, boundNames_cons, ih hlater]
      rfl

theorem eq_of_nodup_names {l : List (Text × Val S)} (h : (l.map Prod.fst).Nodup) {n : Text} {v v' : Val S}
    (hv : (n, v) ∈ l) (hv' : (n, v') ∈ l) : v' = v :=
  congrArg Prod.snd (inj_on_of_nodup_map h hv' hv rfl)

variable {env₀ : Env S}

theorem extend_of_perm {more lets bindings : List (Text × Val S)}
    (hperm : (sources more ++ lets).Perm bindings) (hnodup : (bindings.map Prod.fst).Nodup) {n : Text}
    (hsource : isTemp n = false) (hrest : n ∉ bindings.map Prod.fst → env n = env₀ n) :
    extend env (more ++ lets) n = extend env₀ bindings n := by
  have hmem : ∀ v, (n, v) ∈ more ++ lets ↔ (n, v) ∈ bindings := by
    intro v
    rw [← hperm.mem_iff, mem_append, mem_append, sources, mem_filter]
    simp [hsource]
  by_cases hn : n ∈ bindings.map Prod.fst
  · obtain ⟨⟨_, v⟩, hv, rfl⟩ := List.mem_map.mp hn
    rw [extend_of_mem env ((hmem v).mpr hv) fun v' hv' => eq_of_nodup_names hnodup hv ((hmem v').mp hv'),
      extend_of_mem env₀ hv fun v' hv' => eq_of_nodup_names hnodup hv hv']
  · have hn' : n ∉ (more ++ lets).map Prod.fst := by
      intro hin
      obtain ⟨⟨_, v⟩, hv, rfl⟩ := List.mem_map.mp hin
      exact hn (List.mem_map_of_mem ((hmem v).mp hv))
    rw [extend_of_not_mem env hn', extend_of_not_mem env₀ hn, hrest hn]

structure Matched (value : Expr X) : Prop where
  rereadable : isRereadable value = true
  positional : Positional value
  names : ∀ n ∈ exprNames value, ∀ i, n ≠ payloadTemp i

def ArmRuns (scalars : Scalars S) (observe : X → List X → Val S) (steps : List (Step X)) (lets : List (Text × Expr X))
    (names hidden : List Text) (env₀ env : Env S) : Option (List (Text × Val S)) → Prop
  | none => ∃ more, runFlat scalars env (flattenAll steps) [] = .error more ∧
      Shadows (hidden ++ exposed (flattenAll steps)) env₀ (extend env more)
  | some bindings => ∃ more env', runFlat scalars env (flattenAll steps) [] = .ok more ∧
      (∀ effects, runLets scalars observe (extend env more) lets effects = (env', effects)) ∧
      ∀ n, isTemp n = false → (n ∈ hidden → n ∈ names) → env' n = extend env₀ bindings n

variable {e : Expr X} {k : ℕ} {p : ArmPattern} {hidden : List Text}

theorem arm_runs (he : Matched e) {k' : ℕ} {steps : List (Step X)}
    {lets : List (Text × Expr X)} (hr : armSteps p e k = .ok (steps, lets, k')) (hp : p.IsSource)
    (hnodup : p.names.Nodup) (hclear : clearSteps hidden (flattenAll steps) = true)
    (hlets : clearLets (hidden ++ boundNames (flattenAll steps)) lets = true) (hshadow : Shadows hidden env₀ env) :
    ArmRuns scalars observe steps lets p.names hidden env₀ env (matchArm scalars p (value scalars env₀ e)) := by
  -- The environment of the steps alone: hidden names keep their old values, temporaries their new ones.
  let env₁ : Env S := fun n => if n ∈ hidden then env₀ n else env n
  have hagree : AgreeOff hidden (extend env []) env₁ := fun n hn => (if_neg hn).symm
  have hvalue : value scalars env₁ e = value scalars env₀ e := by
    refine value_congr e fun n hn => ?_
    by_cases hin : n ∈ hidden
    · exact if_pos hin
    · exact (if_neg hin).trans (hshadow n hin (he.names n hn))
  have hbuilt := arm_built p e k hr hp he.positional he.rereadable
  have havoid : Avoids k k' e := fun n hn ⟨i, _, _, heq⟩ => he.names n hn i heq
  have hmatches : Matches scalars _ _ _ _ _ _ _ := arm_matches p e k hr hp he.positional havoid env₁
  rw [hvalue] at hmatches
  cases hm : matchArm scalars p (value scalars env₀ e) with
  | none =>
    rw [hm] at hmatches
    have hideal := hmatches []
    rw [append_nil] at hideal
    obtain ⟨more, hrun, hmore⟩ := runFlat_of_ideal_none hclear hagree hideal
    refine ⟨more, hrun, fun n hn htemp => ?_⟩
    rw [mem_append, not_or] at hn
    rw [extend_of_not_mem env fun hin => ?_]
    · exact hshadow n hn.1 htemp
    have hbinder := hmore n hin
    cases hkind : isTemp n with
    | true =>
      obtain ⟨f, hf, hnf⟩ := List.mem_flatMap.mp hbinder
      obtain ⟨i, heq⟩ := hbuilt.temps f (dropLast_subset _ hf) n hnf hkind
      exact htemp i heq
    | false => exact hn.2 (List.mem_filter.mpr ⟨hbinder, by rw [hkind]; rfl⟩)
  | some bindings =>
    rw [hm] at hmatches
    obtain ⟨env₂, bound, _, hideal, hperm⟩ := hmatches
    have hideal := hideal []
    rw [append_nil, ideal, map_some, append_nil] at hideal
    obtain ⟨more, hrun, hmore, hagree'⟩ := runFlat_of_ideal_some hclear hagree hideal
    rw [ideal_names hideal] at hagree'
    refine ⟨more, _, hrun, fun effects => runLets_of_clear hlets hbuilt.lets hagree' effects, fun n hsource hn => ?_⟩
    have hb : bindings.map Prod.fst = p.names := matchArm_names p _ bindings hm
    rw [← extend_append]
    apply extend_of_perm
    · show (sources more ++ _).Perm bindings
      rw [hmore]
      exact hperm
    · rw [hb]
      exact hnodup
    · exact hsource
    · intro hout
      rw [hb] at hout
      refine hshadow n (fun hin => hout (hn hin)) fun i heq => ?_
      rw [heq, isTemp_payloadTemp] at hsource
      cases hsource

variable {arity : ℕ} {arms : List (ArmPattern × B)}

theorem lowerArms_cons {body : B}
    {lowered : List (Arm X B)} (h : lowerArms e arity ((p, body) :: arms) k = .ok lowered) :
    ∃ steps lets k' rest, armSteps p e k = .ok (steps, lets, k') ∧ lowerArms e arity arms k' = .ok rest ∧
      lowered = ⟨steps, lets, body⟩ :: rest ∧ (arms = [] → steps = []) := by
  obtain ⟨_, _, h⟩ := bind_eq_ok h
  obtain ⟨⟨steps, lets, k'⟩, hsteps, h⟩ := bind_eq_ok h
  dsimp only at h
  split_ifs at h with h₁ h₂
  obtain ⟨rest, hrest, h⟩ := bind_eq_ok h
  cases h
  refine ⟨steps, lets, k', rest, hsteps, hrest, rfl, fun harms => ?_⟩
  by_contra hne
  exact h₂ ⟨harms, hne⟩

theorem lowerArms_eq_nil (h : lowerArms e arity arms k = .ok []) : arms = [] := by
  cases arms with
  | nil => rfl
  | cons arm arms =>
    obtain ⟨_, _, _, _, _, _, heq, _⟩ := lowerArms_cons h
    cases heq

structure Passes (scalars : Scalars S) (steps : List (Step X)) : Prop where
  rereadable : ∀ f ∈ flattenAll steps, f.isRereadable = true
  run : ∀ env more, runFlat scalars env (flattenAll steps ++ more) [] = runFlat scalars env more []

theorem Passes.nil : Passes scalars ([] : List (Step X)) := ⟨fun _ h => (by cases h), fun _ _ => rfl⟩

structure SourceArms (reads : B → List Text) (arms : List (ArmPattern × B)) : Prop where
  patterns : ∀ arm ∈ arms, arm.1.IsSource
  bodies : ∀ arm ∈ arms, ∀ n ∈ reads arm.2, isTemp n = false

variable {reads : B → List Text}

theorem SourceArms.tail {arm : ArmPattern × B} (h : SourceArms reads (arm :: arms)) : SourceArms reads arms :=
  ⟨fun a ha => h.patterns a (mem_cons_of_mem _ ha), fun a ha => h.bodies a (mem_cons_of_mem _ ha)⟩

def DependsOn (exec : B → Env S → List X → O) (reads : B → List Text) : Prop :=
  ∀ body env env' effects, (∀ n ∈ reads body, env n = env' n) → exec body env effects = exec body env' effects

def runFirst (scalars : Scalars S) (exec : B → Env S → List X → O) (arms : List (ArmPattern × B)) (v : Val S)
    (env : Env S) (effects : List X) : Option O :=
  (firstMatch scalars arms v).map fun r => exec r.2 (extend env r.1) effects

theorem runFirst_cons (arms : List (ArmPattern × B)) (p : ArmPattern) (body : B) (v : Val S) (env : Env S)
    (effects : List X) : runFirst scalars exec ((p, body) :: arms) v env effects =
      (matchArm scalars p v).elim (runFirst scalars exec arms v env effects) fun bindings =>
        some (exec body (extend env bindings) effects) := by
  rw [runFirst, firstMatch]
  cases matchArm scalars p v <;> rfl

theorem build_runs (hexec : DependsOn exec reads) (he : Matched e) (harms : SourceArms reads arms) {first : Arm X B}
    {rest : List (Arm X B)} (hlower : lowerArms e arity arms k = .ok (first :: rest))
    (hclear : clearArms reads e arms k hidden = true) {pre : List (Step X)} (hpre : Passes scalars pre) (hshadow : Shadows hidden env₀ env) (effects : List X) :
    some ((build { first with steps := pre ++ first.steps } rest).run scalars observe exec env effects) =
      runFirst scalars exec arms (value scalars env₀ e) env₀ effects := by
  induction arms generalizing k hidden first rest pre env with
  | nil => cases hlower
  | cons arm arms ih =>
    obtain ⟨p, body⟩ := arm
    obtain ⟨steps, lets, k', lowered, hsteps, hrest, heq, hlast⟩ := lowerArms_cons hlower
    obtain ⟨rfl, rfl⟩ := List.cons.inj heq
    rw [clearArms, hsteps] at hclear
    simp only [Bool.and_eq_true, decide_eq_true_eq] at hclear
    obtain ⟨⟨⟨⟨hnodup, hclearSteps⟩, hclearLets⟩, hreads⟩, hclearRest⟩ := hclear
    have hruns : ArmRuns scalars observe steps lets p.names hidden env₀ env _ :=
      arm_runs he hsteps (harms.patterns _ mem_cons_self) hnodup hclearSteps hclearLets hshadow
    have hbody : ∀ env' bindings, (∀ n, isTemp n = false → (n ∈ hidden → n ∈ p.names) →
        env' n = extend env₀ bindings n) → exec body env' effects = exec body (extend env₀ bindings) effects := by
      intro env' bindings hsame
      refine hexec body _ _ effects fun n hn => hsame n (harms.bodies _ mem_cons_self n hn) fun hin => ?_
      have hor := List.all_eq_true.mp hreads n hn
      rw [Bool.or_eq_true, decide_eq_true_eq, decide_eq_true_eq] at hor
      exact hor.resolve_left (not_not_intro hin)
    rw [runFirst_cons]
    cases rest with
    | nil =>
      obtain rfl := hlast (lowerArms_eq_nil hrest)
      cases hm : matchArm scalars p (value scalars env₀ e) with
      | none =>
        rw [hm] at hruns
        obtain ⟨_, hrun, _⟩ := hruns
        cases hrun
      | some bindings =>
        rw [hm] at hruns
        obtain ⟨more, env', hrun, hlets, hsame⟩ := hruns
        cases hrun
        rw [build, Code.run, show runLets scalars observe env lets effects = (env', effects) from hlets effects,
          elim_some]
        exact congrArg some (hbody env' bindings hsame)
    | cons next rest =>
      have hbuilt := arm_built p e k hsteps (harms.patterns _ mem_cons_self) he.positional he.rereadable
      have hreadable : ∀ f ∈ flattenAll (pre ++ steps), f.isRereadable = true := by
        intro f hf
        rw [flattenAll_append, mem_append] at hf
        exact hf.elim (hpre.rereadable f) (hbuilt.rereadable f)
      have hcode : (build ⟨pre ++ steps, lets, body⟩ (next :: rest)).run scalars observe exec env effects =
          outcome scalars observe exec env (build next rest) (.block lets body) effects
            (runFlat scalars env (flattenAll steps) []) := by
        rw [build, ← hpre.run env, ← flattenAll_append]
        exact run_buildSteps env (build next rest) (.block lets body) (pre ++ steps) hreadable [] effects
      rw [hcode]
      cases hm : matchArm scalars p (value scalars env₀ e) with
      | none =>
        rw [hm] at hruns
        obtain ⟨more, hrun, hshadow'⟩ := hruns
        rw [hrun, elim_none]
        exact ih harms.tail hrest hclearRest Passes.nil hshadow'
      | some bindings =>
        rw [hm] at hruns
        obtain ⟨more, env', hrun, hlets, hsame⟩ := hruns
        rw [hrun, elim_some, outcome, Code.run, hlets effects]
        exact congrArg some (hbody env' bindings hsame)

theorem extend_congr {env env' : Env S} {l : List (Text × Val S)} {n : Text} (h : env n = env' n) :
    extend env l n = extend env' l n := by
  induction l generalizing env env' with
  | nil => exact h
  | cons binding l ih =>
    apply ih
    rw [Env.set, Env.set, h]

theorem runFirst_congr (hexec : DependsOn exec reads)
    (harms : SourceArms reads arms) (v : Val S) {env env' : Env S} (h : ∀ n, isTemp n = false → env n = env' n)
    (effects : List X) : runFirst scalars exec arms v env effects = runFirst scalars exec arms v env' effects := by
  induction arms with
  | nil => rfl
  | cons arm arms ih =>
    obtain ⟨p, body⟩ := arm
    rw [runFirst_cons, runFirst_cons, ih harms.tail]
    refine congrArg (Option.elim _ _) (funext fun bindings => congrArg some ?_)
    exact hexec body _ _ effects fun n hn => extend_congr (h n (harms.bodies _ mem_cons_self n hn))

variable {check : Option (Cond X)}

theorem sizeCheck_ok (h : sizeCheck e arity = .ok check) : check = none ∨ check = some (.hasElements arity e) := by
  cases e with
  | structInit name fields =>
    rw [sizeCheck] at h
    split_ifs at h
    cases h
    exact .inl rfl
  | _ =>
    cases h
    exact .inr rfl

theorem sizeCheck_passes (he : isRereadable e = true)
    (h : sizeCheck e arity = .ok check) : Passes scalars (check.map Step.test).toList := by
  rcases sizeCheck_ok h with rfl | rfl
  · exact Passes.nil
  · refine ⟨fun f hf => ?_, fun _ _ => rfl⟩
    obtain rfl := List.mem_singleton.mp hf
    exact he

theorem sizeCheck_rereadable (he : isRereadable e = true)
    (h : sizeCheck e arity = .ok check) : (check.getD .isTrue).isRereadable = true := by
  rcases sizeCheck_ok h with rfl | rfl
  · rfl
  · exact he

def patternValue (scrutinee : Expr X) (k : ℕ) : Expr X × ℕ :=
  if isRereadable scrutinee then (scrutinee, k) else (.identifier (matchTemp k), k + 1)

structure Hygienic (reads : B → List Text) (scrutinee : Expr X) (arms : List (ArmPattern × B)) (k : ℕ) : Prop where
  positional : isRereadable scrutinee = true → Positional scrutinee
  clear : clearArms reads (patternValue scrutinee k).1 arms (patternValue scrutinee k).2 [] = true

theorem lowerTupleMatch_ok {scrutinee : Expr X} {atStatement : Bool} {k : ℕ}
    {lowered : Lowered X B} (h : lowerTupleMatch scrutinee arms atStatement k = .ok lowered) :
    ∃ temp arity check first rest, matched scrutinee atStatement k =
        .ok (temp, (patternValue scrutinee k).1, (patternValue scrutinee k).2) ∧ lowered.temp = temp ∧
      sizeCheck (patternValue scrutinee k).1 arity = .ok check ∧
      lowerArms (patternValue scrutinee k).1 arity arms (patternValue scrutinee k).2 = .ok (first :: rest) ∧
      (lowered.code = build { first with steps := (check.map Step.test).toList ++ first.steps } rest ∨
        rest = [] ∧ lowered.code = .ite [check.getD .isTrue] (.block first.lets first.body)
          (.block first.lets first.body)) := by
  obtain ⟨⟨temp, e, k'⟩, hmatched, h⟩ := bind_eq_ok h
  have hvalue : e = (patternValue scrutinee k).1 ∧ k' = (patternValue scrutinee k).2 := by
    rw [matched] at hmatched
    rw [patternValue]
    split_ifs at hmatched ⊢ with hread hstatement
    · cases hmatched
      exact ⟨rfl, rfl⟩
    · cases hmatched
      exact ⟨rfl, rfl⟩
  obtain ⟨rfl, rfl⟩ := hvalue
  cases harity : tupleArity arms with
  | none =>
    rw [harity] at h
    cases h
  | some arity =>
    rw [harity] at h
    obtain ⟨check, hcheck, h⟩ := bind_eq_ok h
    obtain ⟨loweredArms, hlower, h⟩ := bind_eq_ok h
    cases loweredArms with
    | nil => cases h
    | cons first rest =>
      refine ⟨temp, arity, check, first, rest, hmatched, ?_, hcheck, hlower, ?_⟩
      · cases rest <;> cases h <;> rfl
      · cases rest with
        | nil =>
          cases h
          exact .inr ⟨rfl, rfl⟩
        | cons next rest =>
          cases h
          exact .inl rfl

theorem run_ite_self {tests : List (Cond X)} (h : ∀ c ∈ tests, c.isRereadable = true) (code : Code X B) (env : Env S)
    (effects : List X) :
    (Code.ite tests code code).run scalars observe exec env effects = code.run scalars observe exec env effects := by
  rw [Code.run, evaluateAll_of_rereadable env h, ite_self]

theorem lowered_code_runs (hexec : DependsOn exec reads) (he : Matched e) (harms : SourceArms reads arms) {k : ℕ}
    (hcheck : sizeCheck e arity = .ok check) {first : Arm X B} {rest : List (Arm X B)}
    (hlower : lowerArms e arity arms k = .ok (first :: rest)) (hclear : clearArms reads e arms k [] = true)
    {code : Code X B} (hcode : code = build { first with steps := (check.map Step.test).toList ++ first.steps } rest ∨
      rest = [] ∧ code = .ite [check.getD .isTrue] (.block first.lets first.body) (.block first.lets first.body))
    (env : Env S) (effects : List X) :
    some (code.run scalars observe exec env effects) = runFirst scalars exec arms (value scalars env e) env effects := by
  have hpasses : Passes scalars (check.map Step.test).toList := sizeCheck_passes he.rereadable hcheck
  have hruns : some (Code.run scalars observe exec env _ effects) = _ :=
    build_runs hexec he harms hlower hclear hpasses (fun _ _ _ => rfl) effects
  rcases hcode with rfl | ⟨rfl, rfl⟩
  · exact hruns
  have hread : ∀ c ∈ [check.getD .isTrue], c.isRereadable = true := by
    intro c hc
    obtain rfl := List.mem_singleton.mp hc
    exact sizeCheck_rereadable he.rereadable hcheck
  rw [run_ite_self hread]
  exact hruns

/-- Accepted arms run as the `match` says wherever no name that one of them binds hides a name that is read after it:
the first arm that matches, with its names, and the value evaluated once. -/
theorem lowered_runs_first_match {scrutinee : Expr X} {arms : List (ArmPattern × B)}
    {atStatement : Bool} {k : ℕ} {lowered : Lowered X B}
    (hlower : lowerTupleMatch scrutinee arms atStatement k = .ok lowered)
    (hnames : ∀ n ∈ exprNames scrutinee, isTemp n = false) (harms : SourceArms reads arms)
    (hexec : DependsOn exec reads) (hclear : Hygienic reads scrutinee arms k) (env : Env S) (effects : List X) :
    some (lowered.run scalars observe exec env effects) =
      matchMeaning scalars observe exec scrutinee arms env effects := by
  obtain ⟨temp, arity, check, first, rest, hmatched, htemp, hcheck, hrest, hcode⟩ := lowerTupleMatch_ok hlower
  have hclearArms := hclear.clear
  show _ = runFirst scalars exec arms (evaluate scalars observe env scrutinee effects).1 env
    (evaluate scalars observe env scrutinee effects).2
  rw [matched] at hmatched
  rw [patternValue] at hmatched hcheck hrest hclearArms
  split_ifs at hmatched hcheck hrest hclearArms with hread hstatement
  · cases hmatched
    have he : Matched scrutinee := by
      refine ⟨hread, hclear.positional hread, fun n hn i heq => ?_⟩
      have hsource := hnames n hn
      rw [heq, isTemp_payloadTemp] at hsource
      cases hsource
    rw [Lowered.run, htemp, evaluate_of_rereadable env scrutinee hread]
    exact lowered_code_runs hexec he harms hcheck hrest hclearArms hcode env effects
  · cases hmatched
    have hbool : isBool (matchTemp k) = false := not_isBool_of_isTemp rfl
    have he : Matched (.identifier (matchTemp k) : Expr X) := by
      refine ⟨rfl, trivial, fun n hn i heq => ?_⟩
      rw [exprNames, hbool, if_neg Bool.false_ne_true, List.mem_singleton] at hn
      exact payloadTemp_ne_matchTemp i k (heq.symm.trans hn)
    have hruns : some (Code.run scalars observe exec _ _ _) = _ :=
      lowered_code_runs hexec he harms hcheck hrest hclearArms hcode
        (env.set (matchTemp k) (evaluate scalars observe env scrutinee effects).1)
        (evaluate scalars observe env scrutinee effects).2
    rw [value, readName, hbool, if_neg Bool.false_ne_true, Env.set, if_pos rfl] at hruns
    rw [Lowered.run, htemp]
    refine hruns.trans (runFirst_congr hexec harms _ (fun n hsource => if_neg fun heq => ?_) _)
    rw [heq] at hsource
    cases hsource

end

def numbers : Scalars ℕ where
  const
    | .number value => if value = "0".toList then 0 else 1
    | .string _ => 2
  bool := Bool.toNat
  eq s t := s == t

def readNumbers (body : List Text) (env : Env ℕ) (_ : List Unit) : List (Option ℕ) :=
  body.map fun n => match env n with
    | .scalar s => some s
    | _ => none

theorem readNumbers_dependsOn : DependsOn readNumbers id := by
  intro body env env' effects h
  refine map_congr_left fun n hn => ?_
  rw [h n hn]

def pair (first second : String) : Expr Unit :=
  .structInit "Tuple2".toList [(fieldName 0, .identifier first.toList), (fieldName 1, .identifier second.toList)]

def someOf (p : Pattern) : ArmPattern := .plain (.enumVariant "Option".toList "Some".toList [p])

def named (n : String) : Pattern := .identifier n.toList

def zero : ArmPattern := .plain (.literal (.number "0".toList))

def sampleEnv : Env ℕ := fun n =>
  if n = "a".toList then .scalar 1
  else if n = "b".toList then .scalar 2
  else if n = "n".toList then .scalar 3
  else if n = "x".toList then .variant "Some".toList [.scalar 0]
  else .record []

def runLowered (scrutinee : Expr Unit) (arms : List (ArmPattern × List Text)) : Option (List (Option ℕ)) :=
  match lowerTupleMatch scrutinee arms true 0 with
  | .ok lowered => some (lowered.run numbers (fun _ _ => .record []) readNumbers sampleEnv [])
  | .error _ => none

def runMeaning (scrutinee : Expr Unit) (arms : List (ArmPattern × List Text)) : Option (List (Option ℕ)) :=
  matchMeaning numbers (fun _ _ => .record []) readNumbers scrutinee arms sampleEnv []

def swapped : List (ArmPattern × List Text) :=
  [(.tuple [.plain (named "b"), .plain (named "a")], ["b".toList, "a".toList])]

def shadowedTest : List (ArmPattern × List Text) :=
  [(.tuple [someOf (named "b"), zero], ["b".toList]), (.plain .wildcard, ["n".toList])]

def shadowedBody : List (ArmPattern × List Text) :=
  [(.tuple [someOf (named "n"), zero], ["n".toList]),
    (.tuple [.plain .wildcard, .plain (named "k")], ["n".toList])]

/-- On `(a, b)` the second name reads the first one; on `(x, b)` the payload stands for the element that is tested, and
for a name in the body of the arm below. -/
theorem names_are_captured :
    (runLowered (pair "a" "b") swapped = some [some 1, some 1] ∧
      runMeaning (pair "a" "b") swapped = some [some 1, some 2]) ∧
    (runLowered (pair "x" "b") shadowedTest = some [some 0] ∧
      runMeaning (pair "x" "b") shadowedTest = some [some 3]) ∧
    runLowered (pair "x" "b") shadowedBody = some [some 0] ∧
      runMeaning (pair "x" "b") shadowedBody = some [some 3] := by
  decide +kernel

def nested : List (ArmPattern × List Text) :=
  [(.tuple [someOf (.enumVariant "Option".toList "Some".toList [named "m"]), zero], ["m".toList]),
    (.tuple [.plain (named "u"), .plain (named "v")], ["v".toList, "n".toList])]

theorem lowered_runs_first_match_nested :
    ∃ lowered, lowerTupleMatch (pair "x" "b") nested true 0 = .ok lowered ∧
      some (lowered.run numbers (fun _ _ => .record []) readNumbers sampleEnv []) = some [some 2, some 3] := by
  have hlower : ∃ lowered, lowerTupleMatch (pair "x" "b") nested true 0 = .ok lowered := ⟨_, rfl⟩
  obtain ⟨lowered, hlower⟩ := hlower
  have hpatterns : ∀ arm ∈ nested, arm.1.IsSource :=
    List.forall_mem_cons.mpr ⟨⟨⟨⟨rfl, trivial⟩, trivial⟩, trivial, trivial⟩,
      List.forall_mem_singleton.mpr ⟨rfl, rfl, trivial⟩⟩
  have hpositional : Positional (pair "x" "b") := ⟨rfl, trivial, rfl, trivial, trivial⟩
  refine ⟨lowered, hlower, Eq.trans (lowered_runs_first_match hlower ?_ ⟨hpatterns, ?_⟩ readNumbers_dependsOn
    ⟨fun _ => hpositional, ?_⟩ sampleEnv []) ?_⟩
  · decide
  · decide
  · decide
  · decide

end Vx.TupleMatch
