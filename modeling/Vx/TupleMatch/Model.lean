import Vx.Lib.TaggedKey

/-!
The `match` on a tuple, which the parser rewrites into tests and matches on the elements: `parser/tuple_match.rs`. The
body of an arm and an expression that cannot be read again stand for themselves.
-/

namespace Vx.TupleMatch

open Lib.TaggedKey (Text decimal)

inductive Const
  | number (value : Text)
  | string (value : Text)
deriving DecidableEq

inductive Expr (X : Type)
  | identifier (name : Text)
  | const (c : Const)
  | memberAccess (base : Expr X) (member : Text)
  | structInit (name : Text) (fields : List (Text × Expr X))
  | other (x : X)

inductive Pattern
  | wildcard
  | literal (c : Const)
  | identifier (name : Text)
  | unitVariant (enumName variant : Text)
  | enumVariant (enumName variant : Text) (payload : List Pattern)

inductive ArmPattern
  | tuple (elems : List ArmPattern)
  | plain (p : Pattern)

inductive Cond (X : Type)
  | equals (lhs rhs : Expr X)
  | hasElements (n : ℕ) (value : Expr X)
  | isTrue

inductive Binder
  | wildcard
  | name (n : Text)
deriving DecidableEq

inductive Step (X : Type)
  | test (c : Cond X)
  | variant (value : Expr X) (enumName variant : Text) (payload : List Binder) (thens : List (Step X))

structure Arm (X B : Type) where
  steps : List (Step X)
  lets : List (Text × Expr X)
  body : B

inductive Code (X B : Type)
  | block (lets : List (Text × Expr X)) (body : B)
  | ite (tests : List (Cond X)) (thens elses : Code X B)
  | matchVariant (value : Expr X) (enumName variant : Text) (payload : List Binder) (thens elses : Code X B)

structure Lowered (X B : Type) where
  temp : Option (Text × Expr X)
  code : Code X B

section
variable {X B : Type}

def isBool (name : Text) : Bool := name = "true".toList || name = "false".toList

def isTuple (name : Text) : Bool := "Tuple".toList.isPrefixOf name

mutual

def isRereadable : Expr X → Bool
  | .identifier _ => true
  | .const _ => true
  | .memberAccess base _ => isRereadable base
  | .structInit name fields => isTuple name && areRereadable fields
  | .other _ => false

def areRereadable : List (Text × Expr X) → Bool
  | [] => true
  | (_, e) :: fields => isRereadable e && areRereadable fields

end

def fieldName (i : ℕ) : Text := '_' :: decimal i

def element (value : Expr X) (i : ℕ) : Except String (Expr X) :=
  match value with
  | .structInit name fields =>
    if isTuple name then
      match fields[i]? with
      | some field => .ok field.2
      | none => .error "index out of bounds"
    else .ok (.memberAccess value (fieldName i))
  | _ => .ok (.memberAccess value (fieldName i))

def payloadTemp (k : ℕ) : Text := "$payload".toList ++ decimal k

def matchTemp (k : ℕ) : Text := "$match".toList ++ decimal k

def binderOf : Pattern → Option Binder
  | .wildcard => some .wildcard
  | .identifier n => if isBool n then none else some (.name n)
  | _ => none

mutual

def plainSteps : Pattern → Expr X → ℕ → List (Step X) × List (Text × Expr X) × ℕ
  | .wildcard, _, k => ([], [], k)
  | .literal c, value, k => ([.test (.equals value (.const c))], [], k)
  | .identifier n, value, k =>
    if isBool n then ([.test (.equals value (.identifier n))], [], k) else ([], [(n, value)], k)
  | .unitVariant en v, value, k => ([.variant value en v [] []], [], k)
  | .enumVariant en v payload, value, k =>
    let inner := payloadSteps payload k
    ([.variant value en v inner.1 inner.2.1], inner.2.2.1, inner.2.2.2)

def payloadSteps : List Pattern → ℕ → List Binder × List (Step X) × List (Text × Expr X) × ℕ
  | [], k => ([], [], [], k)
  | p :: ps, k =>
    match binderOf p with
    | some b =>
      let rest := payloadSteps ps k
      (b :: rest.1, rest.2.1, rest.2.2.1, rest.2.2.2)
    | none =>
      let inner := plainSteps p (.identifier (payloadTemp k)) (k + 1)
      let rest := payloadSteps ps inner.2.2
      (.name (payloadTemp k) :: rest.1, inner.1 ++ rest.2.1, inner.2.1 ++ rest.2.2.1, rest.2.2.2)

end

mutual

def armSteps : ArmPattern → Expr X → ℕ → Except String (List (Step X) × List (Text × Expr X) × ℕ)
  | .tuple elems, value, k => elemSteps elems value 0 k
  | .plain p, value, k => .ok (plainSteps p value k)

def elemSteps : List ArmPattern → Expr X → ℕ → ℕ → Except String (List (Step X) × List (Text × Expr X) × ℕ)
  | [], _, _, k => .ok ([], [], k)
  | p :: ps, value, i, k => do
    let e ← element value i
    let here ← armSteps p e k
    let rest ← elemSteps ps value (i + 1) here.2.2
    return (here.1 ++ rest.1, here.2.1 ++ rest.2.1, rest.2.2)

end

def checkArity (arity : ℕ) : ArmPattern → Except String Unit
  | .tuple elems =>
    if elems.length = arity then .ok ()
    else .error ("every tuple pattern in this `match` has " ++ toString arity ++ " elements; this one has " ++
      toString elems.length)
  | .plain _ => .ok ()

def lowerArms (value : Expr X) (arity : ℕ) : List (ArmPattern × B) → ℕ → Except String (List (Arm X B))
  | [], _ => .ok []
  | (pattern, body) :: arms, k => do
    checkArity arity pattern
    let (steps, lets, k) ← armSteps pattern value k
    if arms ≠ [] ∧ steps = [] then
      .error "this arm matches every value, so the arms after it can never run"
    else if arms = [] ∧ steps ≠ [] then
      .error "a `match` on a tuple must end with an arm that matches every value, such as `_` or `(a, b)`"
    else
      let rest ← lowerArms value arity arms k
      return ⟨steps, lets, body⟩ :: rest

mutual

def Step.size : Step X → ℕ
  | .test _ => 1
  | .variant _ _ _ _ thens => Step.sizes thens + 1

def Step.sizes : List (Step X) → ℕ
  | [] => 0
  | s :: ss => s.size + Step.sizes ss

end

def Step.cond : Step X → Option (Cond X)
  | .test c => some c
  | .variant _ _ _ _ _ => none

theorem Step.sizes_append (ss ts : List (Step X)) : Step.sizes (ss ++ ts) = Step.sizes ss + Step.sizes ts := by
  induction ss with
  | nil => simp [Step.sizes]
  | cons s ss ih =>
    rw [List.cons_append, Step.sizes, Step.sizes, ih]
    omega

theorem Step.sizes_dropWhile (f : Step X → Bool) (ss : List (Step X)) : Step.sizes (ss.dropWhile f) ≤ Step.sizes ss := by
  induction ss with
  | nil => simp
  | cons s ss ih =>
    rw [List.dropWhile_cons]
    split
    · rw [Step.sizes]
      omega
    · exact Nat.le_refl _

/-- The steps of an arm around its body. Each one falls back to the arms below where it fails, and tests in a row are
one `if`. -/
def buildSteps (fallback body : Code X B) : List (Step X) → Code X B
  | [] => body
  | .test c :: steps =>
    .ite (c :: (steps.takeWhile fun s => s.cond.isSome).filterMap Step.cond)
      (buildSteps fallback body (steps.dropWhile fun s => s.cond.isSome)) fallback
  | .variant value en v payload thens :: steps =>
    .matchVariant value en v payload (buildSteps fallback body (thens ++ steps)) fallback
termination_by steps => Step.sizes steps
decreasing_by
  · have hle := Step.sizes_dropWhile (fun s => s.cond.isSome) steps
    rw [Step.sizes, Step.size]
    omega
  · rw [Step.sizes, Step.size, Step.sizes_append]
    omega

def build : Arm X B → List (Arm X B) → Code X B
  | arm, [] => .block arm.lets arm.body
  | arm, next :: arms => buildSteps (build next arms) (.block arm.lets arm.body) arm.steps

def matched (scrutinee : Expr X) (atStatement : Bool) (k : ℕ) : Except String (Option (Text × Expr X) × Expr X × ℕ) :=
  if isRereadable scrutinee then .ok (none, scrutinee, k)
  else if atStatement then .ok (some (matchTemp k, scrutinee), .identifier (matchTemp k), k + 1)
  else .error "a `match` on a tuple used as a value must match a variable; put the value in a `let` first"

def tupleArity : List (ArmPattern × B) → Option ℕ
  | [] => none
  | (.tuple elems, _) :: _ => some elems.length
  | (.plain _, _) :: arms => tupleArity arms

def sizeCheck (value : Expr X) (arity : ℕ) : Except String (Option (Cond X)) :=
  match value with
  | .structInit _ fields =>
    if fields.length = arity then .ok none
    else .error ("the patterns have " ++ toString arity ++ " elements, but the tuple has " ++ toString fields.length)
  | _ => .ok (some (.hasElements arity value))

def lowerTupleMatch (scrutinee : Expr X) (arms : List (ArmPattern × B)) (atStatement : Bool) (k : ℕ) :
    Except String (Lowered X B) := do
  let (temp, value, k) ← matched scrutinee atStatement k
  match tupleArity arms with
  | none => .error "a tuple match has a tuple pattern"
  | some arity =>
    let check ← sizeCheck value arity
    let lowered ← lowerArms value arity arms k
    match lowered with
    | [] => .error "one arm"
    | [arm] =>
      return ⟨temp, .ite [check.getD .isTrue] (.block arm.lets arm.body) (.block arm.lets arm.body)⟩
    | first :: arms =>
      return ⟨temp, build { first with steps := (check.map Step.test).toList ++ first.steps } arms⟩

inductive Val (S : Type)
  | scalar (s : S)
  | record (fields : List (Text × Val S))
  | variant (name : Text) (payload : List (Val S))

structure Scalars (S : Type) where
  const : Const → S
  bool : Bool → S
  eq : S → S → Bool

variable {S X B O : Type} (scalars : Scalars S)

def Val.field (v : Val S) (name : Text) : Val S :=
  match v with
  | .record fields => (fields.lookup name).getD (.record [])
  | _ => .record []

def Val.part (v : Val S) (i : ℕ) : Val S :=
  match v with
  | .variant _ payload => payload.getD i (.record [])
  | _ => .record []

def Val.isVariant (v : Val S) (name : Text) : Bool :=
  match v with
  | .variant name' _ => name = name'
  | _ => false

def Val.eq (v w : Val S) : Bool :=
  match v, w with
  | .scalar s, .scalar t => scalars.eq s t
  | _, _ => false

abbrev Env (S : Type) := Text → Val S

def Env.set (env : Env S) (name : Text) (v : Val S) : Env S := fun n => if n = name then v else env n

def extend (env : Env S) : List (Text × Val S) → Env S
  | [] => env
  | (n, v) :: bindings => extend (env.set n v) bindings

def readName (env : Env S) (name : Text) : Val S :=
  if isBool name then .scalar (scalars.bool (name = "true".toList)) else env name

variable (observe : X → List X → Val S)

mutual

def evaluate (env : Env S) : Expr X → List X → Val S × List X
  | .identifier name, effects => (readName scalars env name, effects)
  | .const c, effects => (.scalar (scalars.const c), effects)
  | .memberAccess base member, effects =>
    let base := evaluate env base effects
    (base.1.field member, base.2)
  | .structInit _ fields, effects =>
    let fields := evaluateFields env fields effects
    (.record fields.1, fields.2)
  | .other x, effects => (observe x effects, effects ++ [x])

def evaluateFields (env : Env S) : List (Text × Expr X) → List X → List (Text × Val S) × List X
  | [], effects => ([], effects)
  | (name, e) :: fields, effects =>
    let v := evaluate env e effects
    let rest := evaluateFields env fields v.2
    ((name, v.1) :: rest.1, rest.2)

end

def Cond.evaluate (env : Env S) : Cond X → List X → Bool × List X
  | .equals lhs rhs, effects =>
    let l := TupleMatch.evaluate scalars observe env lhs effects
    let r := TupleMatch.evaluate scalars observe env rhs l.2
    (l.1.eq scalars r.1, r.2)
  | .hasElements _ value, effects =>
    let v := TupleMatch.evaluate scalars observe env value effects
    (true, v.2)
  | .isTrue, effects => (true, effects)

def evaluateAll (env : Env S) : List (Cond X) → List X → Bool × List X
  | [], effects => (true, effects)
  | c :: cs, effects =>
    let b := c.evaluate scalars observe env effects
    if b.1 then evaluateAll env cs b.2 else (false, b.2)

def bindParts (v : Val S) : List Binder → ℕ → List (Text × Val S)
  | [], _ => []
  | .wildcard :: bs, i => bindParts v bs (i + 1)
  | .name n :: bs, i => (n, v.part i) :: bindParts v bs (i + 1)

def runLets (env : Env S) : List (Text × Expr X) → List X → Env S × List X
  | [], effects => (env, effects)
  | (n, e) :: lets, effects =>
    let v := evaluate scalars observe env e effects
    runLets (env.set n v.1) lets v.2

variable (exec : B → Env S → List X → O)

def Code.run (env : Env S) : Code X B → List X → O
  | .block lets body, effects =>
    let env' := runLets scalars observe env lets effects
    exec body env'.1 env'.2
  | .ite tests thens elses, effects =>
    let b := evaluateAll scalars observe env tests effects
    if b.1 then thens.run env b.2 else elses.run env b.2
  | .matchVariant value _ variant payload thens elses, effects =>
    let v := evaluate scalars observe env value effects
    if v.1.isVariant variant then thens.run (extend env (bindParts v.1 payload 0)) v.2 else elses.run env v.2

def Lowered.run (lowered : Lowered X B) (env : Env S) (effects : List X) : O :=
  match lowered.temp with
  | none => lowered.code.run scalars observe exec env effects
  | some (temp, scrutinee) =>
    let v := evaluate scalars observe env scrutinee effects
    lowered.code.run scalars observe exec (env.set temp v.1) v.2

end

variable {S X B O : Type} (scalars : Scalars S)

mutual

def matchPattern : Pattern → Val S → Option (List (Text × Val S))
  | .wildcard, _ => some []
  | .literal c, v => if v.eq scalars (.scalar (scalars.const c)) then some [] else none
  | .identifier n, v =>
    if isBool n then
      if v.eq scalars (.scalar (scalars.bool (n = "true".toList))) then some [] else none
    else some [(n, v)]
  | .unitVariant _ name, v => if v.isVariant name then some [] else none
  | .enumVariant _ name payload, v => if v.isVariant name then matchPayload payload v 0 else none

def matchPayload : List Pattern → Val S → ℕ → Option (List (Text × Val S))
  | [], _, _ => some []
  | p :: ps, v, i =>
    (matchPattern p (v.part i)).bind fun here => (matchPayload ps v (i + 1)).map (here ++ ·)

end

mutual

def matchArm : ArmPattern → Val S → Option (List (Text × Val S))
  | .tuple elems, v => matchElems elems v 0
  | .plain p, v => matchPattern scalars p v

def matchElems : List ArmPattern → Val S → ℕ → Option (List (Text × Val S))
  | [], _, _ => some []
  | p :: ps, v, i =>
    (matchArm p (v.field (fieldName i))).bind fun here => (matchElems ps v (i + 1)).map (here ++ ·)

end

def firstMatch : List (ArmPattern × B) → Val S → Option (List (Text × Val S) × B)
  | [], _ => none
  | (pattern, body) :: arms, v =>
    match matchArm scalars pattern v with
    | some bindings => some (bindings, body)
    | none => firstMatch arms v

/-- What a `match` means: the value is evaluated once, and the body of the first arm that matches runs with the names
of its pattern. -/
def matchMeaning (observe : X → List X → Val S) (exec : B → Env S → List X → O) (scrutinee : Expr X)
    (arms : List (ArmPattern × B)) (env : Env S) (effects : List X) : Option O :=
  let v := evaluate scalars observe env scrutinee effects
  (firstMatch scalars arms v.1).map fun (bindings, body) => exec body (extend env bindings) v.2

end Vx.TupleMatch
