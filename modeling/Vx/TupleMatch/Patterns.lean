import Vx.Lib.Fallible
import Vx.TupleMatch.Ideal

namespace Vx.TupleMatch

open List Option Bool
open Lib.TaggedKey (Text decimal_inj)
open Lib.Fallible (bind_eq_ok)

variable {S X B O : Type} {scalars : Scalars S}

mutual

theorem le_plainSteps (p : Pattern) (e : Expr X) (k : ℕ) : k ≤ (plainSteps p e k).2.2 := by
  cases p with
  | wildcard | literal c | unitVariant en v => exact Nat.le_refl k
  | identifier n =>
    rw [plainSteps]
    split_ifs <;> exact Nat.le_refl k
  | enumVariant en v payload => exact le_payloadSteps payload k

theorem le_payloadSteps (ps : List Pattern) (k : ℕ) : k ≤ (payloadSteps (X := X) ps k).2.2.2 := by
  cases ps with
  | nil => exact Nat.le_refl k
  | cons p ps =>
    rw [payloadSteps]
    cases binderOf p with
    | some b => exact le_payloadSteps ps k
    | none =>
      exact (Nat.le_succ k).trans ((le_plainSteps p (.identifier (payloadTemp k)) (k + 1)).trans (le_payloadSteps ps _))

end

theorem exprNames_payloadTemp (k : ℕ) : exprNames (.identifier (payloadTemp k) : Expr X) = [payloadTemp k] := by
  rw [exprNames, not_isBool_of_isTemp (isTemp_payloadTemp k), if_neg Bool.false_ne_true]

theorem LetsOver.append {k l k' : ℕ} (hkl : k ≤ l) (hlk : l ≤ k') {names names' : List Text}
    {lets lets' : List (Text × Expr X)} (h : LetsOver k l names lets) (h' : LetsOver l k' names' lets') :
    LetsOver k k' (names ++ names') (lets ++ lets') := by
  intro entry hentry n hn
  rcases List.mem_append.mp hentry with hin | hin
  · exact (h entry hin n hn).imp (mem_append_left _) fun hr => hr.mono (Nat.le_refl k) hlk
  · exact (h' entry hin n hn).imp (mem_append_right _) fun hr => hr.mono hkl (Nat.le_refl k')

theorem LetsOver.mono {k k' l l' : ℕ} (hl : l ≤ k) (hl' : k' ≤ l') {names names' : List Text}
    {lets : List (Text × Expr X)} (hnames : ∀ n ∈ names, n ∈ names' ∨ InRange l l' n)
    (h : LetsOver k k' names lets) : LetsOver l l' names' lets := by
  intro entry hentry n hn
  rcases h entry hentry n hn with hin | hr
  · exact hnames n hin
  · exact .inr (hr.mono hl hl')

mutual

theorem plainSteps_lets (p : Pattern) (e : Expr X) (k : ℕ) :
    LetsOver k (plainSteps p e k).2.2 (exprNames e) (plainSteps p e k).2.1 := by
  cases p with
  | wildcard | literal c | unitVariant en v => exact fun _ h => by cases h
  | identifier n =>
    rw [plainSteps]
    split_ifs
    · exact fun _ h => by cases h
    · intro entry hentry m hm
      obtain rfl := List.mem_singleton.mp hentry
      exact .inl hm
  | enumVariant en v payload =>
    exact (payloadSteps_lets payload k).mono (Nat.le_refl _) (Nat.le_refl _) fun _ h => by cases h

theorem payloadSteps_lets (ps : List Pattern) (k : ℕ) :
    LetsOver k (payloadSteps (X := X) ps k).2.2.2 [] (payloadSteps (X := X) ps k).2.2.1 := by
  cases ps with
  | nil => exact fun _ h => by cases h
  | cons p ps =>
    rw [payloadSteps]
    cases hb : binderOf p with
    | some b => exact payloadSteps_lets ps k
    | none =>
      have hle := le_plainSteps p (.identifier (payloadTemp k) : Expr X) (k + 1)
      have hle' := le_payloadSteps (X := X) ps (plainSteps p (.identifier (payloadTemp k) : Expr X) (k + 1)).2.2
      refine ((plainSteps_lets p (.identifier (payloadTemp k)) (k + 1)).append hle hle'
        (payloadSteps_lets ps _)).mono (Nat.le_succ k) (Nat.le_refl _) ?_
      intro n hn
      rw [exprNames_payloadTemp, append_nil, List.mem_singleton] at hn
      exact .inr ⟨k, Nat.le_refl k, hle.trans hle', hn⟩

end

section

theorem isTemp_of_binderOf {p : Pattern} (hp : p.IsSource) {n : Text} (h : binderOf p = some (.name n)) :
    isTemp n = false := by
  cases p with
  | identifier n' =>
    rw [binderOf] at h
    split_ifs at h
    cases h
    exact hp
  | _ => cases h

theorem payloadSteps_temps {ps : List Pattern} (hps : Pattern.AreSource ps) (k : ℕ) :
    ∀ n ∈ binderNames (payloadSteps (X := X) ps k).1,
      isTemp n = true → InRange k (payloadSteps (X := X) ps k).2.2.2 n := by
  induction ps generalizing k with
  | nil => exact fun n hn => by cases hn
  | cons p ps ih =>
    intro n hn htemp
    rw [payloadSteps] at hn ⊢
    cases hb : binderOf p with
    | some b =>
      rw [hb] at hn
      cases b with
      | wildcard => exact ih hps.2 k n hn htemp
      | name n' =>
        rcases List.mem_cons.mp hn with rfl | hn
        · rw [isTemp_of_binderOf hps.1 hb] at htemp
          cases htemp
        · exact ih hps.2 k n hn htemp
    | none =>
      rw [hb] at hn
      have hle := le_plainSteps p (.identifier (payloadTemp k) : Expr X) (k + 1)
      have hle' := le_payloadSteps (X := X) ps (plainSteps p (.identifier (payloadTemp k) : Expr X) (k + 1)).2.2
      rcases List.mem_cons.mp hn with rfl | hn
      · exact ⟨k, Nat.le_refl k, hle.trans hle', rfl⟩
      · exact (ih hps.2 _ n hn htemp).mono ((Nat.le_succ k).trans hle) (Nat.le_refl _)

theorem payloadSteps_temps_nodup {ps : List Pattern} (hps : Pattern.AreSource ps) (k : ℕ) :
    ((binderNames (payloadSteps (X := X) ps k).1).filter isTemp).Nodup := by
  induction ps generalizing k with
  | nil => exact nodup_nil
  | cons p ps ih =>
    rw [payloadSteps]
    cases hb : binderOf p with
    | some b =>
      cases b with
      | wildcard => exact ih hps.2 k
      | name n' =>
        show ((n' :: binderNames (payloadSteps (X := X) ps k).1).filter isTemp).Nodup
        rw [filter_cons_of_neg (by rw [isTemp_of_binderOf hps.1 hb]; exact Bool.false_ne_true)]
        exact ih hps.2 k
    | none =>
      show ((payloadTemp k :: binderNames (payloadSteps (X := X) ps _).1).filter isTemp).Nodup
      rw [filter_cons_of_pos (isTemp_payloadTemp k), nodup_cons]
      refine ⟨fun hmem => ?_, ih hps.2 _⟩
      obtain ⟨i, hi, _, heq⟩ := payloadSteps_temps hps.2 _ _ (List.mem_filter.mp hmem).1 (isTemp_payloadTemp k)
      have := le_plainSteps p (.identifier (payloadTemp k) : Expr X) (k + 1)
      have := payloadTemp_inj heq
      omega

def HoldsParts (env : Env S) (binders : List Binder) (w : Val S) (i : ℕ) : Prop :=
  ∀ j n, binders[j]? = some (.name n) → isTemp n = true → env n = w.part (i + j)

variable {binders : List Binder}

theorem HoldsParts.tail {env : Env S} {b : Binder} {w : Val S} {i : ℕ}
    (h : HoldsParts env (b :: binders) w i) : HoldsParts env binders w (i + 1) := by
  intro j n hj htemp
  rw [h (j + 1) n hj htemp, show i + (j + 1) = i + 1 + j by omega]

theorem mem_binderNames {j : ℕ} {n : Text} (h : binders[j]? = some (.name n)) :
    n ∈ binderNames binders := List.mem_filterMap.mpr ⟨_, mem_of_getElem? h, rfl⟩

theorem HoldsParts.of_eqOff {env env' : Env S} {w : Val S} {i k k' l l' : ℕ}
    (h : HoldsParts env binders w i) (hrange : ∀ n ∈ binderNames binders, isTemp n = true → InRange l l' n)
    (hkl : k' ≤ l) (heq : EqOff k k' env env') : HoldsParts env' binders w i := by
  intro j n hj htemp
  rw [← heq n fun hin => hin.disjoint hkl (hrange n (mem_binderNames hj) htemp)]
  exact h j n hj htemp

theorem holdsParts_extend (env : Env S) (w : Val S) (hnodup : ((binderNames binders).filter isTemp).Nodup) :
    HoldsParts (extend env (temps (bindParts w binders 0))) binders w 0 := by
  intro j n hj htemp
  have hnames : (temps (bindParts w binders 0)).map Prod.fst = (binderNames binders).filter isTemp := by
    rw [← bindParts_names w binders 0, temps, List.filter_map]
    rfl
  rw [← hnames] at hnodup
  have hmem : (n, w.part (0 + j)) ∈ temps (bindParts w binders 0) := List.mem_filter.mpr ⟨mem_bindParts hj, htemp⟩
  apply extend_of_mem env hmem
  intro v' hv'
  exact congrArg Prod.snd (inj_on_of_nodup_map hnodup hv' hmem rfl)

end

theorem matches_of_eq {k k' : ℕ} {steps : List (Flat X)} {lets : List (Text × Expr X)} {env : Env S}
    {before : List (Text × Val S)} {m m' : Option (List (Text × Val S))}
    (h : Matches scalars k k' steps lets env before m) (heq : m = m') :
    Matches scalars k k' steps lets env before m' := heq ▸ h

mutual

theorem plain_matches (p : Pattern) (e : Expr X) (k : ℕ) (env : Env S) (hp : p.IsSource) :
    Matches scalars k (plainSteps p e k).2.2 (flattenAll (plainSteps p e k).1) (plainSteps p e k).2.1 env []
      (matchPattern scalars p (value scalars env e)) := by
  cases p with
  | wildcard => exact Matches.nil k [] env
  | literal c => exact Matches.test rfl
  | identifier n =>
    rw [plainSteps, matchPattern]
    by_cases hbool : isBool n = true
    · rw [if_pos hbool, if_pos hbool]
      exact Matches.test (if_pos hbool)
    · rw [if_neg hbool, if_neg hbool]
      exact Matches.nil k [(n, e)] env
  | unitVariant en v => exact Matches.variant (fun _ h => by cases h) (Matches.nil k [] _)
  | enumVariant en v payload =>
    show Matches scalars k _ (.variant e v (payloadSteps payload k).1 :: flattenAll (payloadSteps payload k).2.1 ++ [])
      _ env [] _
    rw [append_nil]
    refine Matches.variant (payloadSteps_temps hp k) (payload_matches payload k _ _ 0 hp ?_)
    exact holdsParts_extend env _ (payloadSteps_temps_nodup hp k)

theorem payload_matches (ps : List Pattern) (k : ℕ) (env : Env S) (w : Val S) (i : ℕ) (hps : Pattern.AreSource ps)
    (hparts : HoldsParts env (payloadSteps (X := X) ps k).1 w i) :
    Matches scalars k (payloadSteps (X := X) ps k).2.2.2 (flattenAll (payloadSteps (X := X) ps k).2.1)
      (payloadSteps ps k).2.2.1 env (sources (bindParts w (payloadSteps (X := X) ps k).1 i))
      (matchPayload scalars ps w i) := by
  cases ps with
  | nil => exact Matches.nil k [] env
  | cons p ps =>
    rw [payloadSteps] at hparts ⊢
    rw [matchPayload]
    cases hb : binderOf p with
    | some b =>
      rw [hb] at hparts
      have hrest := payload_matches ps k env w (i + 1) hps.2 hparts.tail
      cases p with
      | wildcard =>
        cases hb
        exact matches_of_eq hrest (by rw [matchPattern, bind_some]; simp)
      | identifier n =>
        rw [binderOf] at hb
        split_ifs at hb with hbool
        cases hb
        have hsources : sources (bindParts w (.name n :: (payloadSteps (X := X) ps k).1) i) =
            (n, w.part i) :: sources (bindParts w (payloadSteps (X := X) ps k).1 (i + 1)) := by
          rw [bindParts, sources, filter_cons_of_pos (by rw [show isTemp n = false from hps.1]; rfl)]
          rfl
        rw [hsources, matchPattern, if_neg hbool, bind_some]
        exact hrest.cons (n, w.part i)
      | literal c | unitVariant en v | enumVariant en v payload => cases hb
    | none =>
      rw [hb] at hparts
      have hvalue : value scalars env (.identifier (payloadTemp k) : Expr X) = w.part i := by
        exact hparts 0 _ rfl (isTemp_payloadTemp k)
      have hle := le_plainSteps p (.identifier (payloadTemp k) : Expr X) (k + 1)
      have hle' := le_payloadSteps (X := X) ps (plainSteps p (.identifier (payloadTemp k) : Expr X) (k + 1)).2.2
      have hhere := plain_matches p (.identifier (payloadTemp k) : Expr X) (k + 1) env hps.1
      rw [hvalue] at hhere
      have hnames : ∀ n ∈ exprNames (.identifier (payloadTemp k) : Expr X),
          ¬ InRange (plainSteps p (.identifier (payloadTemp k) : Expr X) (k + 1)).2.2
            (payloadSteps (X := X) ps (plainSteps p (.identifier (payloadTemp k) : Expr X) (k + 1)).2.2).2.2.2 n := by
        intro n hn
        rw [exprNames_payloadTemp, List.mem_singleton] at hn
        exact InRange.disjoint hle ⟨k, Nat.le_refl k, Nat.lt_succ_self k, hn⟩
      have hall := Matches.append hle hle' (plainSteps_lets p _ (k + 1)) hnames hhere fun env' heq =>
        payload_matches ps _ env' w (i + 1) hps.2
          (hparts.tail.of_eqOff (payloadSteps_temps hps.2 _) (Nat.le_refl _) heq)
      rw [flattenAll_append]
      exact hall.mono (Nat.le_succ k) (Nat.le_refl _)

end

mutual

def ArmPattern.IsSource : ArmPattern → Prop
  | .tuple elems => ArmPattern.AreSource elems
  | .plain p => p.IsSource

def ArmPattern.AreSource : List ArmPattern → Prop
  | [] => True
  | p :: ps => p.IsSource ∧ ArmPattern.AreSource ps

end

mutual

def Positional : Expr X → Prop
  | .structInit _ fields => PositionalFields fields 0
  | _ => True

def PositionalFields : List (Text × Expr X) → ℕ → Prop
  | [], _ => True
  | (n, e) :: fields, i => n = fieldName i ∧ Positional e ∧ PositionalFields fields (i + 1)

end

variable {i : ℕ}

theorem fieldName_inj {j : ℕ} (h : fieldName i = fieldName j) : i = j := decimal_inj (List.cons.inj h).2

variable {fields : List (Text × Expr X)} {field : Text × Expr X}

theorem PositionalFields.lookup (scalars : Scalars S) (env : Env S) {j : ℕ}
    (h : PositionalFields fields i) (hget : fields[j]? = some field) :
    (valueFields scalars env fields).lookup (fieldName (i + j)) = some (value scalars env field.2) := by
  induction fields generalizing i j with
  | nil => cases hget
  | cons first fields ih =>
    obtain ⟨n, e⟩ := first
    obtain ⟨rfl, he, hrest⟩ := h
    cases j with
    | zero =>
      cases hget
      exact lookup_cons_self
    | succ j =>
      have hne : (fieldName (i + (j + 1)) == fieldName i) = false := by
        rw [beq_eq_false_iff_ne]
        intro heq
        have := fieldName_inj heq
        omega
      rw [valueFields, lookup_cons, hne, show i + (j + 1) = i + 1 + j by omega]
      exact ih hrest hget

theorem PositionalFields.positional (h : PositionalFields fields i) (hmem : field ∈ fields) : Positional field.2 := by
  induction fields generalizing i with
  | nil => cases hmem
  | cons first fields ih =>
    obtain ⟨_, he, hrest⟩ := h
    rcases List.mem_cons.mp hmem with rfl | hmem
    · exact he
    · exact ih hrest hmem

theorem exprNames_of_mem (h : field ∈ fields) : ∀ n ∈ exprNames field.2, n ∈ fieldsNames fields := by
  induction fields with
  | nil => cases h
  | cons first fields ih =>
    intro n hn
    rcases List.mem_cons.mp h with rfl | h
    · exact mem_append_left _ hn
    · exact mem_append_right _ (ih h n hn)

theorem isRereadable_of_mem (h : field ∈ fields)
    (hread : areRereadable fields = true) : isRereadable field.2 = true := by
  induction fields with
  | nil => cases h
  | cons first fields ih =>
    rw [areRereadable, and_eq_true] at hread
    rcases List.mem_cons.mp h with rfl | h
    · exact hread.1
    · exact ih h hread.2

structure IsElement (e : Expr X) (i : ℕ) (e' : Expr X) : Prop where
  value_eq : ∀ {S : Type} (scalars : Scalars S) (env : Env S),
    value scalars env e' = (value scalars env e).field (fieldName i)
  positional : Positional e'
  names : ∀ n ∈ exprNames e', n ∈ exprNames e
  rereadable : isRereadable e = true → isRereadable e' = true

theorem isElement_memberAccess (e : Expr X) (i : ℕ) : IsElement e i (.memberAccess e (fieldName i)) :=
  ⟨fun _ _ => rfl, trivial, fun _ hn => hn, fun h => h⟩

theorem element_isElement {e e' : Expr X} (he : Positional e) (h : element e i = .ok e') : IsElement e i e' := by
  cases e with
  | structInit name fields =>
    rw [element] at h
    split_ifs at h with htuple
    · cases hget : fields[i]? with
      | none =>
        rw [hget] at h
        cases h
      | some field =>
        rw [hget] at h
        cases h
        have hmem := mem_of_getElem? hget
        refine ⟨fun scalars env => ?_, PositionalFields.positional he hmem, exprNames_of_mem hmem, fun hread => ?_⟩
        · have hlookup := PositionalFields.lookup scalars env he hget
          rw [Nat.zero_add] at hlookup
          rw [value, Val.field, hlookup, getD_some]
        · rw [isRereadable, and_eq_true] at hread
          exact isRereadable_of_mem hmem hread.2
    · cases h
      exact isElement_memberAccess _ i
  | identifier n | const c | memberAccess base member | other x =>
    cases h
    exact isElement_memberAccess _ i

theorem elemSteps_cons {p : ArmPattern} {ps : List ArmPattern} {e : Expr X} {k : ℕ}
    {r : List (Step X) × List (Text × Expr X) × ℕ} (h : elemSteps (p :: ps) e i k = .ok r) :
    ∃ e' here rest, element e i = .ok e' ∧ armSteps p e' k = .ok here ∧ elemSteps ps e (i + 1) here.2.2 = .ok rest ∧
      r = (here.1 ++ rest.1, here.2.1 ++ rest.2.1, rest.2.2) := by
  obtain ⟨e', he, h⟩ := bind_eq_ok h
  obtain ⟨here, hhere, h⟩ := bind_eq_ok h
  obtain ⟨rest, hrest, h⟩ := bind_eq_ok h
  cases h
  exact ⟨e', here, rest, he, hhere, hrest, rfl⟩

mutual

theorem le_armSteps (p : ArmPattern) (e : Expr X) (k : ℕ) {r : List (Step X) × List (Text × Expr X) × ℕ}
    (hr : armSteps p e k = .ok r) : k ≤ r.2.2 := by
  cases p with
  | tuple elems => exact le_elemSteps elems e 0 k hr
  | plain p =>
    cases hr
    exact le_plainSteps p e k

theorem le_elemSteps (ps : List ArmPattern) (e : Expr X) (i k : ℕ) {r : List (Step X) × List (Text × Expr X) × ℕ}
    (hr : elemSteps ps e i k = .ok r) : k ≤ r.2.2 := by
  cases ps with
  | nil =>
    cases hr
    exact Nat.le_refl k
  | cons p ps =>
    obtain ⟨e', here, rest, _, hhere, hrest, rfl⟩ := elemSteps_cons hr
    have hle := le_elemSteps ps e (i + 1) here.2.2 hrest
    exact (le_armSteps p e' k hhere).trans hle

end

mutual

theorem armSteps_lets (p : ArmPattern) (e : Expr X) (k : ℕ) {r : List (Step X) × List (Text × Expr X) × ℕ}
    (hr : armSteps p e k = .ok r) (he : Positional e) : LetsOver k r.2.2 (exprNames e) r.2.1 := by
  cases p with
  | tuple elems => exact elemSteps_lets elems e 0 k hr he
  | plain p =>
    cases hr
    exact plainSteps_lets p e k

theorem elemSteps_lets (ps : List ArmPattern) (e : Expr X) (i k : ℕ) {r : List (Step X) × List (Text × Expr X) × ℕ}
    (hr : elemSteps ps e i k = .ok r) (he : Positional e) : LetsOver k r.2.2 (exprNames e) r.2.1 := by
  cases ps with
  | nil =>
    cases hr
    exact fun _ h => by cases h
  | cons p ps =>
    obtain ⟨e', here, rest, hget, hhere, hrest, rfl⟩ := elemSteps_cons hr
    have helem := element_isElement he hget
    have hhere' := armSteps_lets p e' k hhere helem.positional
    have hrest' := elemSteps_lets ps e (i + 1) _ hrest he
    refine (hhere'.append (le_armSteps p e' k hhere) (le_elemSteps ps e (i + 1) _ hrest) hrest').mono (Nat.le_refl _)
      (Nat.le_refl _) fun n hn => .inl ?_
    rcases List.mem_append.mp hn with hn | hn
    · exact helem.names n hn
    · exact hn

end

mutual

theorem arm_matches (p : ArmPattern) (e : Expr X) (k : ℕ) {r : List (Step X) × List (Text × Expr X) × ℕ}
    (hr : armSteps p e k = .ok r) (hp : p.IsSource) (he : Positional e) (havoid : Avoids k r.2.2 e) (env : Env S) :
    Matches scalars k r.2.2 (flattenAll r.1) r.2.1 env [] (matchArm scalars p (value scalars env e)) := by
  cases p with
  | tuple elems => exact elem_matches elems e 0 k hr hp he havoid env
  | plain p =>
    cases hr
    exact plain_matches p e k env hp

theorem elem_matches (ps : List ArmPattern) (e : Expr X) (i k : ℕ) {r : List (Step X) × List (Text × Expr X) × ℕ}
    (hr : elemSteps ps e i k = .ok r) (hps : ArmPattern.AreSource ps) (he : Positional e) (havoid : Avoids k r.2.2 e)
    (env : Env S) :
    Matches scalars k r.2.2 (flattenAll r.1) r.2.1 env [] (matchElems scalars ps (value scalars env e) i) := by
  cases ps with
  | nil =>
    cases hr
    exact Matches.nil k [] env
  | cons p ps =>
    obtain ⟨e', here, rest, hget, hhere, hrest, rfl⟩ := elemSteps_cons hr
    have helem := element_isElement he hget
    have hle := le_armSteps p e' k hhere
    have hle' := le_elemSteps ps e (i + 1) _ hrest
    have hnames : ∀ n ∈ exprNames e', ¬ InRange here.2.2 rest.2.2 n :=
      fun n hn hin => havoid n (helem.names n hn) (hin.mono hle (Nat.le_refl _))
    have havoid' : Avoids k here.2.2 e' := fun n hn hin => havoid n (helem.names n hn) (hin.mono (Nat.le_refl _) hle')
    have hfirst := arm_matches p e' k hhere hps.1 helem.positional havoid' env
    rw [helem.value_eq scalars env] at hfirst
    rw [flattenAll_append, matchElems]
    refine Matches.append hle hle' (armSteps_lets p e' k hhere helem.positional) hnames hfirst ?_
    intro env' heq
    have hsame : value scalars env e = value scalars env' e :=
      value_of_eqOff heq fun n hn hin => havoid n hn (hin.mono (Nat.le_refl _) hle')
    rw [hsame]
    exact elem_matches ps e (i + 1) here.2.2 hrest hps.2 he
      (fun n hn hin => havoid n hn (hin.mono hle (Nat.le_refl _))) env'

end

end Vx.TupleMatch
