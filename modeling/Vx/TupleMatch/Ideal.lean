import Vx.TupleMatch.Steps

/-!
The steps of a pattern in an environment of temporaries, which no name of the program hides. They pass exactly where the
pattern matches, and with the `let`s they give each name its part of the value.
-/

namespace Vx.TupleMatch

open List Multiset Bool Function
open Lib.TaggedKey (Text decimal_inj)

variable {S X B O : Type} {scalars : Scalars S}

section

def isTemp (n : Text) : Bool := n.head? = some '$'

theorem payloadTemp_inj {i j : ℕ} (h : payloadTemp i = payloadTemp j) : i = j := decimal_inj (append_cancel_left h)

theorem isTemp_payloadTemp (i : ℕ) : isTemp (payloadTemp i) = true := rfl

variable {n : Text}

theorem not_isBool_of_isTemp (h : isTemp n = true) : isBool n = false := by
  by_contra hbool
  rw [not_eq_false, isBool, or_eq_true, decide_eq_true_eq, decide_eq_true_eq] at hbool
  rcases hbool with rfl | rfl <;> cases h

theorem payloadTemp_ne_matchTemp (i j : ℕ) : payloadTemp i ≠ matchTemp j := by
  intro h
  have hsecond := congrArg (fun t : Text => t[1]?) h
  cases hsecond

def InRange (k k' : ℕ) (n : Text) : Prop := ∃ i, k ≤ i ∧ i < k' ∧ n = payloadTemp i

variable {k k' l l' : ℕ}

theorem InRange.mono (hl : l ≤ k) (hl' : k' ≤ l') (h : InRange k k' n) : InRange l l' n := by
  obtain ⟨i, hi, hi', rfl⟩ := h
  exact ⟨i, by omega, by omega, rfl⟩

theorem InRange.disjoint (hkl : k' ≤ l) (h : InRange k k' n) : ¬ InRange l l' n := by
  obtain ⟨i, hi, hi', rfl⟩ := h
  rintro ⟨j, hj, hj', heq⟩
  have := payloadTemp_inj heq
  omega

def EqOff (k k' : ℕ) (env env' : Env S) : Prop := ∀ n, ¬ InRange k k' n → env n = env' n

variable {env env' : Env S}

theorem EqOff.trans {env'' : Env S} (h : EqOff k k' env env') (h' : EqOff k k' env' env'') :
    EqOff k k' env env'' := fun n hn => (h n hn).trans (h' n hn)

theorem EqOff.mono (hl : l ≤ k) (hl' : k' ≤ l') (h : EqOff k k' env env') :
    EqOff l l' env env' := fun n hn => h n fun hin => hn (hin.mono hl hl')

def Avoids (k k' : ℕ) (e : Expr X) : Prop := ∀ n ∈ exprNames e, ¬ InRange k k' n

theorem value_of_eqOff (h : EqOff k k' env env') {e : Expr X} (he : Avoids k k' e) :
    value scalars env e = value scalars env' e := value_congr e fun n hn => h n (he n hn)

end

def binderName : Binder → Option Text
  | .wildcard => none
  | .name n => some n

def binderNames (bs : List Binder) : List Text := bs.filterMap binderName

def sourceNames (names : List Text) : List Text := names.filter fun n => !isTemp n

def temps (l : List (Text × Val S)) : List (Text × Val S) := l.filter fun b => isTemp b.1

def sources (l : List (Text × Val S)) : List (Text × Val S) := l.filter fun b => !isTemp b.1

theorem bindParts_names (w : Val S) (bs : List Binder) (i : ℕ) : (bindParts w bs i).map Prod.fst = binderNames bs := by
  induction bs generalizing i with
  | nil => rfl
  | cons b bs ih =>
    cases b with
    | wildcard => exact ih (i + 1)
    | name n => exact congrArg (n :: ·) (ih (i + 1))

theorem mem_bindParts {w : Val S} {bs : List Binder} {i j : ℕ} {n : Text} (h : bs[j]? = some (.name n)) :
    (n, w.part (i + j)) ∈ bindParts w bs i := by
  induction bs generalizing i j with
  | nil => cases h
  | cons b bs ih =>
    cases j with
    | zero =>
      cases h
      exact List.mem_cons_self
    | succ j =>
      have hmem := ih (i := i + 1) h
      rw [show i + 1 + j = i + (j + 1) by omega] at hmem
      cases b with
      | wildcard => exact hmem
      | name n' => exact List.mem_cons_of_mem _ hmem

/-- A run of the steps that hides no name: the temporaries that it binds are in the environment, the other names come
after it. -/
def ideal (scalars : Scalars S) : List (Flat X) → Env S → Option (Env S × List (Text × Val S))
  | [], env => some (env, [])
  | .test c :: steps, env => if c.holds scalars env then ideal scalars steps env else none
  | .variant e v payload :: steps, env =>
    let w := value scalars env e
    if w.isVariant v then
      (ideal scalars steps (extend env (temps (bindParts w payload 0)))).map fun r =>
        (r.1, sources (bindParts w payload 0) ++ r.2)
    else none

mutual

def Pattern.IsSource : Pattern → Prop
  | .identifier n => isTemp n = false
  | .enumVariant _ _ payload => Pattern.AreSource payload
  | _ => True

def Pattern.AreSource : List Pattern → Prop
  | [] => True
  | p :: ps => p.IsSource ∧ Pattern.AreSource ps

end

def LetsOver (k k' : ℕ) (names : List Text) (lets : List (Text × Expr X)) : Prop :=
  ∀ l ∈ lets, ∀ n ∈ exprNames l.2, n ∈ names ∨ InRange k k' n

def letValues (scalars : Scalars S) (env : Env S) (lets : List (Text × Expr X)) : List (Text × Val S) :=
  lets.map fun l => (l.1, value scalars env l.2)

variable {k k' l : ℕ} {env : Env S} {lets : List (Text × Expr X)}

theorem letValues_of_eqOff {l' : ℕ} {names : List Text} {env' : Env S}
    (h : EqOff l l' env env') (hlets : LetsOver k k' names lets) (hnames : ∀ n ∈ names, ¬ InRange l l' n)
    (hrange : k' ≤ l) : letValues scalars env lets = letValues scalars env' lets := by
  apply map_congr_left
  intro entry hentry
  rw [value_congr entry.2 fun n hn => ?_]
  apply h
  rcases hlets entry hentry n hn with hin | hin
  · exact hnames n hin
  · exact hin.disjoint hrange

def Matches (scalars : Scalars S) (k k' : ℕ) (steps : List (Flat X)) (lets : List (Text × Expr X)) (env : Env S)
    (before : List (Text × Val S)) : Option (List (Text × Val S)) → Prop
  | none => ∀ more, ideal scalars (steps ++ more) env = none
  | some bindings => ∃ env' bound, EqOff k k' env env' ∧
      (∀ more, ideal scalars (steps ++ more) env = (ideal scalars more env').map fun r => (r.1, bound ++ r.2)) ∧
      (before ++ bound ++ letValues scalars env' lets).Perm bindings

theorem Matches.nil (k : ℕ) (lets : List (Text × Expr X)) (env : Env S) :
    Matches scalars k k [] lets env [] (some (letValues scalars env lets)) :=
  ⟨env, [], fun _ _ => rfl, fun more => by simp, by simp⟩

variable {steps : List (Flat X)} {before : List (Text × Val S)}

theorem Matches.append (hkl : k ≤ l) (hlk : l ≤ k') {steps' : List (Flat X)}
    {lets' : List (Text × Expr X)} {before' : List (Text × Val S)}
    {here : Option (List (Text × Val S))} {there : Option (List (Text × Val S))}
    {names : List Text} (hlets : LetsOver k l names lets) (hnames : ∀ n ∈ names, ¬ InRange l k' n)
    (hhere : Matches scalars k l steps lets env before here)
    (hthere : ∀ env', EqOff k l env env' → Matches scalars l k' steps' lets' env' before' there) :
    Matches scalars k k' (steps ++ steps') (lets ++ lets') env (before ++ before')
      (here.bind fun b => there.map (b ++ ·)) := by
  cases here with
  | none =>
    intro more
    rw [append_assoc]
    exact hhere _
  | some bindings =>
    obtain ⟨env', bound, heq, hideal, hperm⟩ := hhere
    have hnext := hthere env' heq
    cases there with
    | none =>
      intro more
      rw [append_assoc, hideal, hnext more]
      rfl
    | some bindings' =>
      obtain ⟨env'', bound', heq', hideal', hperm'⟩ := hnext
      refine ⟨env'', bound ++ bound', (heq.mono (Nat.le_refl k) hlk).trans (heq'.mono hkl (Nat.le_refl k')), ?_, ?_⟩
      · intro more
        rw [append_assoc, hideal, hideal']
        simp [comp_def]
      · have hvalues : letValues scalars env' lets = letValues scalars env'' lets :=
          letValues_of_eqOff heq' hlets hnames (Nat.le_refl l)
        have hsplit : letValues scalars env'' (lets ++ lets') =
            letValues scalars env' lets ++ letValues scalars env'' lets' := by
          rw [hvalues]
          exact map_append
        rw [hsplit]
        refine List.Perm.trans ?_ (hperm.append hperm')
        rw [← coe_eq_coe]
        simp only [← coe_add]
        abel

variable {m : Option (List (Text × Val S))}

theorem Matches.mono {l' : ℕ} (hl : l ≤ k) (hl' : k' ≤ l')
    (h : Matches scalars k k' steps lets env before m) : Matches scalars l l' steps lets env before m := by
  cases m with
  | none => exact h
  | some bindings =>
    obtain ⟨env', bound, heq, hrest⟩ := h
    exact ⟨env', bound, heq.mono hl hl', hrest⟩

theorem Matches.cons (binding : Text × Val S) (h : Matches scalars k k' steps lets env before m) :
    Matches scalars k k' steps lets env (binding :: before) (m.map (binding :: ·)) := by
  cases m with
  | none => exact h
  | some bindings =>
    obtain ⟨env', bound, heq, hideal, hperm⟩ := h
    exact ⟨env', bound, heq, hideal, hperm.cons binding⟩

theorem Matches.variant {e : Expr X} {v : Text} {payload : List Binder}
    (hrange : ∀ n ∈ binderNames payload, isTemp n = true → InRange k k' n)
    (h : Matches scalars k k' steps lets (extend env (temps (bindParts (value scalars env e) payload 0)))
      (sources (bindParts (value scalars env e) payload 0)) m) :
    Matches scalars k k' (.variant e v payload :: steps) lets env []
      (if (value scalars env e).isVariant v then m else none) := by
  split_ifs with hv
  · cases m with
    | none =>
      intro more
      rw [cons_append, ideal, if_pos hv, h more]
      rfl
    | some bindings =>
      obtain ⟨env', bound, heq, hideal, hperm⟩ := h
      refine ⟨env', sources (bindParts (value scalars env e) payload 0) ++ bound, ?_, ?_, hperm⟩
      · intro n hn
        rw [← heq n hn]
        refine (extend_of_not_mem env fun hmem => ?_).symm
        obtain ⟨binding, hbinding, rfl⟩ := List.mem_map.mp hmem
        obtain ⟨hin, htemp⟩ := List.mem_filter.mp hbinding
        refine hn (hrange _ ?_ htemp)
        rw [← bindParts_names (value scalars env e) payload 0]
        exact List.mem_map_of_mem hin
      · intro more
        rw [cons_append, ideal, if_pos hv, hideal more]
        simp [comp_def]
  · intro more
    rw [cons_append, ideal, if_neg hv]

theorem Matches.test {e : Expr X} {rhs : Expr X} {v : Val S} (hrhs : value scalars env rhs = v) :
    Matches scalars k k [.test (.equals e rhs)] [] env []
      (if (value scalars env e).eq scalars v then some [] else none) := by
  subst hrhs
  split_ifs with hv
  · refine ⟨env, [], fun _ _ => rfl, fun more => ?_, List.Perm.refl _⟩
    rw [singleton_append, ideal, Cond.holds, if_pos hv]
    simp
  · intro more
    rw [singleton_append, ideal, Cond.holds, if_neg hv]

end Vx.TupleMatch
