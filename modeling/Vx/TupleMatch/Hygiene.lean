import Vx.TupleMatch.Patterns

namespace Vx.TupleMatch

open List
open Lib.TaggedKey (Text)

variable {S X B O : Type} {scalars : Scalars S} {observe : X → List X → Val S}

def Flat.binders : Flat X → List Text
  | .test _ => []
  | .variant _ _ payload => binderNames payload

def boundNames (steps : List (Flat X)) : List Text := sourceNames (steps.flatMap Flat.binders)

def exposed (steps : List (Flat X)) : List Text := boundNames steps.dropLast

def clearSteps : List Text → List (Flat X) → Bool
  | _, [] => true
  | hidden, .test c :: steps => c.names.all (· ∉ hidden) && clearSteps hidden steps
  | hidden, .variant e _ payload :: steps =>
    (exprNames e).all (· ∉ hidden) && clearSteps (hidden ++ sourceNames (binderNames payload)) steps

def clearLets : List Text → List (Text × Expr X) → Bool
  | _, [] => true
  | hidden, (n, e) :: lets => (exprNames e).all (· ∉ hidden) && clearLets (hidden ++ [n]) lets

def AgreeOff (hidden : List Text) (env env' : Env S) : Prop := ∀ n, n ∉ hidden → env n = env' n

variable {hidden : List Text} {env env' : Env S}

theorem AgreeOff.value (h : AgreeOff hidden env env') {e : Expr X}
    (he : (exprNames e).all (· ∉ hidden) = true) : value scalars env e = value scalars env' e :=
  value_congr e fun n hn => h n (of_decide_eq_true (List.all_eq_true.mp he n hn))

theorem AgreeOff.set (h : AgreeOff hidden env env') (n : Text) (v : Val S) :
    AgreeOff (hidden ++ [n]) (env.set n v) env' := by
  intro m hm
  rw [mem_append, not_or, List.mem_singleton] at hm
  rw [Env.set, if_neg hm.2]
  exact h m hm.1

theorem agreeOff_extend (h : AgreeOff hidden env env')
    (l : List (Text × Val S)) : AgreeOff (hidden ++ (sources l).map Prod.fst) (extend env l) (extend env' (temps l)) := by
  induction l generalizing hidden env env' with
  | nil => exact fun n hn => h n fun hmem => hn (mem_append_left _ hmem)
  | cons binding l ih =>
    obtain ⟨n, v⟩ := binding
    cases htemp : isTemp n with
    | true =>
      have htemps : temps ((n, v) :: l) = (n, v) :: temps l := filter_cons_of_pos htemp
      have hsources : sources ((n, v) :: l) = sources l := filter_cons_of_neg (by simp [htemp])
      rw [htemps, hsources]
      apply ih
      intro m hm
      rw [Env.set, Env.set]
      split_ifs
      · rfl
      · exact h m hm
    | false =>
      have htemps : temps ((n, v) :: l) = temps l := filter_cons_of_neg (by simp [htemp])
      have hsources : sources ((n, v) :: l) = (n, v) :: sources l := filter_cons_of_pos (by simp [htemp])
      have hrest := ih (h.set n v)
      rw [append_assoc] at hrest
      rw [htemps, hsources]
      exact hrest

theorem sources_bindParts_names (w : Val S) (payload : List Binder) :
    (sources (bindParts w payload 0)).map Prod.fst = sourceNames (binderNames payload) := by
  rw [← bindParts_names w payload 0, sources, sourceNames, filter_map]
  rfl

variable {env₀ : Env S} {steps : List (Flat X)} {bound : List (Text × Val S)}

theorem runFlat_of_ideal_some {env₁ : Env S} {named : List (Text × Val S)} (hclear : clearSteps hidden steps = true)
    (hagree : AgreeOff hidden (extend env bound) env₀) (h : ideal scalars steps env₀ = some (env₁, named)) :
    ∃ more, runFlat scalars env steps bound = .ok (bound ++ more) ∧ sources more = named ∧
      AgreeOff (hidden ++ named.map Prod.fst) (extend env (bound ++ more)) env₁ := by
  induction steps generalizing hidden bound env₀ named with
  | nil =>
    cases h
    refine ⟨[], by rw [runFlat, append_nil], rfl, ?_⟩
    rw [map_nil, append_nil, append_nil]
    exact hagree
  | cons step steps ih =>
    cases step with
    | test c =>
      rw [clearSteps, Bool.and_eq_true] at hclear
      have hsame : c.holds scalars (extend env bound) = c.holds scalars env₀ :=
        Cond.holds_congr fun n hn => hagree n (of_decide_eq_true (List.all_eq_true.mp hclear.1 n hn))
      rw [ideal] at h
      split_ifs at h with hholds
      rw [runFlat, hsame, if_pos hholds]
      exact ih hclear.2 hagree h
    | variant e v payload =>
      rw [clearSteps, Bool.and_eq_true] at hclear
      have hsame : value scalars (extend env bound) e = value scalars env₀ e := hagree.value hclear.1
      rw [ideal] at h
      split_ifs at h with hv
      obtain ⟨⟨env₂, later⟩, hlater, heq⟩ := Option.map_eq_some_iff.mp h
      cases heq
      have hnext := agreeOff_extend hagree (bindParts (value scalars env₀ e) payload 0)
      rw [← extend_append, sources_bindParts_names] at hnext
      obtain ⟨more, hrun, hmore, hagree'⟩ := ih hclear.2 hnext hlater
      refine ⟨bindParts (value scalars env₀ e) payload 0 ++ more, ?_, ?_, ?_⟩
      · rw [runFlat, hsame, if_pos hv, hrun, append_assoc]
      · rw [← hmore]
        exact filter_append _ _
      · rw [map_append, sources_bindParts_names, ← append_assoc, ← append_assoc]
        exact hagree'

theorem runFlat_of_ideal_none (hclear : clearSteps hidden steps = true) (hagree : AgreeOff hidden (extend env bound) env₀)
    (h : ideal scalars steps env₀ = none) : ∃ more, runFlat scalars env steps bound = .error (bound ++ more) ∧
      ∀ n ∈ more.map Prod.fst, n ∈ steps.dropLast.flatMap Flat.binders := by
  induction steps generalizing hidden bound env₀ with
  | nil => cases h
  | cons step steps ih =>
    cases step with
    | test c =>
      rw [clearSteps, Bool.and_eq_true] at hclear
      have hsame : c.holds scalars (extend env bound) = c.holds scalars env₀ :=
        Cond.holds_congr fun n hn => hagree n (of_decide_eq_true (List.all_eq_true.mp hclear.1 n hn))
      rw [ideal] at h
      rw [runFlat, hsame]
      split_ifs at h ⊢ with hholds
      · obtain ⟨more, hrun, hmore⟩ := ih hclear.2 hagree h
        refine ⟨more, hrun, fun n hn => ?_⟩
        cases steps with
        | nil => exact hmore n hn
        | cons step steps => exact hmore n hn
      · exact ⟨[], by rw [append_nil], fun n hn => by cases hn⟩
    | variant e v payload =>
      rw [clearSteps, Bool.and_eq_true] at hclear
      have hsame : value scalars (extend env bound) e = value scalars env₀ e := hagree.value hclear.1
      rw [ideal] at h
      rw [runFlat, hsame]
      split_ifs at h ⊢ with hv
      · have hnext := agreeOff_extend hagree (bindParts (value scalars env₀ e) payload 0)
        rw [← extend_append, sources_bindParts_names] at hnext
        obtain ⟨more, hrun, hmore⟩ := ih hclear.2 hnext (Option.map_eq_none_iff.mp h)
        refine ⟨bindParts (value scalars env₀ e) payload 0 ++ more, by rw [hrun, append_assoc], fun n hn => ?_⟩
        cases steps with
        | nil => cases h
        | cons step steps =>
          rw [dropLast_cons_cons, flatMap_cons, mem_append]
          rw [map_append, mem_append, bindParts_names] at hn
          exact hn.imp id (hmore n)
      · exact ⟨[], by rw [append_nil], fun n hn => by cases hn⟩

theorem runLets_of_clear {lets : List (Text × Expr X)}
    (hclear : clearLets hidden lets = true) (hread : ∀ l ∈ lets, isRereadable l.2 = true)
    (hagree : AgreeOff hidden env env₀) (effects : List X) :
    runLets scalars observe env lets effects = (extend env (letValues scalars env₀ lets), effects) := by
  induction lets generalizing hidden env with
  | nil => rfl
  | cons entry lets ih =>
    obtain ⟨n, e⟩ := entry
    rw [clearLets, Bool.and_eq_true] at hclear
    rw [runLets, evaluate_of_rereadable env e (hread _ mem_cons_self), hagree.value hclear.1]
    exact ih hclear.2 (fun l hl => hread l (mem_cons_of_mem _ hl)) (hagree.set n _)

end Vx.TupleMatch
