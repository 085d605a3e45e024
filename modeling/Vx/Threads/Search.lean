import Vx.Lib.Inquiry
import Vx.Threads.Program

/-!
The search of `check/thread_safety.rs`: why a type is not `Send`, `Sync` or `Owned`. Each call is a check, and the
calls that it makes are its questions.
-/

namespace Vx.Threads

open Lib.Inquiry
open Lib.TaggedKey (Text)

section

structure Call where
  visiting : List (Ty × ThreadTrait)
  ty : Ty
  which : ThreadTrait

abbrev Failure := Check Call String

variable (env : Env)

def heldTypes (name : Text) (args : List Ty) : List (String × Ty) :=
  let substitute' (generics : List GenericParam) (ty : Ty) : Ty :=
    substitute env.toDeclarations ((generics.map GenericParam.name).zip args) ty
  match env.structs.lookup name with
  | some decl => decl.fields.map fun (f, t) => ("field '" ++ String.ofList f ++ "'", substitute' decl.generics t)
  | none =>
    match env.enums.lookup name with
    | some decl => decl.variants.flatMap fun (variant, payload) =>
        (payload.getD []).map fun t => ("variant '" ++ String.ofList variant ++ "'", substitute' decl.generics t)
    | none => []

def unsafeImpls (which : ThreadTrait) : List ImplBlock :=
  ((env.impls.lookup which.name.toList).getD []).filter ImplBlock.isUnsafe

def implBounds (ib : ImplBlock) (mapping : Bindings) : List (Text × ThreadTrait × Ty) :=
  ib.generics.flatMap fun
    | .type name bounds =>
      match mapping.lookup name with
      | some boundTo => bounds.map fun b => (name, b, boundTo)
      | none => []
    | .other _ => []

def boundFails (which : ThreadTrait) (visiting : List (Ty × ThreadTrait)) (ib : ImplBlock) (name : Text)
    (b : ThreadTrait) (boundTo : Ty) : Failure :=
  .ask ⟨visiting, boundTo, b⟩ fun why =>
    "`unsafe impl " ++ which.name ++ " for " ++ env.display ib.targetType ++ "` needs `" ++ String.ofList name ++ " : " ++
      b.name ++ "`, and " ++ why

def boundsFail (which : ThreadTrait) (visiting : List (Ty × ThreadTrait)) (ib : ImplBlock) (mapping : Bindings) :
    Failure :=
  Check.all ((implBounds ib mapping).map fun (name, b, boundTo) => boundFails env which visiting ib name b boundTo)

def implsVerdict (ty : Ty) (which : ThreadTrait) (visiting : List (Ty × ThreadTrait)) : List ImplBlock → Option Failure
  | [] => none
  | ib :: ibs =>
    match unifyTypes env ib.targetType ty [] with
    | none => implsVerdict ty which visiting ibs
    | some mapping =>
      match implsVerdict ty which visiting ibs with
      | none => some (boundsFail env which visiting ib mapping)
      | some later => some (.either (boundsFail env which visiting ib mapping) later)

def unsafeImplVerdict (ty : Ty) (which : ThreadTrait) (visiting : List (Ty × ThreadTrait)) : Option Failure :=
  implsVerdict env ty which visiting (unsafeImpls env which)

def nominalFailsUnvisited (ty : Ty) (name : Text) (args : List Ty) (which : ThreadTrait)
    (visiting : List (Ty × ThreadTrait)) : Failure :=
  match unsafeImplVerdict env ty which visiting with
  | some verdict => verdict
  | none =>
    if which = .Sync ∧ name = "SharedCell".toList then
      .fail ("'" ++ env.display ty ++ "' is never `Sync`: code can write its value through a shared reference")
    else
      Check.all ((heldTypes env name args).map fun (field, held) =>
        .ask ⟨visiting, held, which⟩ fun inner =>
          field ++ " of '" ++ env.display ty ++ "' has type '" ++ env.display held ++ "', and " ++ inner)

def nominal : Ty → Option (Text × List Ty)
  | .struct name | .enum name => some (name, [])
  | .genericInstance (.struct name) args | .genericInstance (.enum name) args => some (name, args)
  | _ => none

def nominalThreadTraitFails (visiting : List (Ty × ThreadTrait)) (ty : Ty) (which : ThreadTrait) : Failure :=
  match nominal ty with
  | none => .pass
  | some (name, args) =>
    -- A type that is already being visited depends on its other fields only.
    if (ty, which) ∈ visiting then .pass
    else nominalFailsUnvisited env ty name args which ((ty, which) :: visiting)

def threadTraitFails (visiting : List (Ty × ThreadTrait)) (ty : Ty) (which : ThreadTrait) : Failure :=
  match ty with
  | .pointer _ _ _ =>
    if which = .Owned then .pass
    else .fail ("'" ++ env.display ty ++ "' is a raw pointer, which is not `" ++ which.name ++ "`")
  | .closure _ _ =>
    .fail ("'" ++ env.display ty ++ "' is a closure type, which does not say what the closure captures")
  | .borrow inner _ isMut _ =>
    if which = .Owned then .fail ("'" ++ env.display ty ++ "' is a reference, which is not `Owned`")
    else if isMut then .ask ⟨visiting, inner, which⟩ id
    else .ask ⟨visiting, inner, .Sync⟩ fun why =>
      "'" ++ env.display ty ++ "' shares a '" ++ env.display inner ++ "', which is not `Sync`: " ++ why
  | .ref inner _ =>
    if which = .Owned then .fail ("'" ++ env.display ty ++ "' is a reference, which is not `Owned`")
    else .ask ⟨visiting, inner, .Sync⟩ fun why =>
      "'" ++ env.display ty ++ "' shares a '" ++ env.display inner ++ "', which is not `Sync`: " ++ why
  | .verified inner | .pinned inner _ => .ask ⟨visiting, inner, which⟩ id
  | .struct _ | .enum _ | .genericInstance _ _ => nominalThreadTraitFails env visiting ty which
  | _ => .pass

def Call.check (call : Call) : Failure := threadTraitFails env call.visiting call.ty call.which

def whyNotThreadTrait (fuel : ℕ) (ty : Ty) (which : ThreadTrait) : Option (Option String) :=
  answer (Call.check env) fuel ⟨[], ty, which⟩

end

variable (env : Env)

def ImplHolds (H : Set (Ty × ThreadTrait)) (ty : Ty) (which : ThreadTrait) : Prop :=
  ∃ ib ∈ unsafeImpls env which, ∃ mapping, unifyTypes env ib.targetType ty [] = some mapping ∧
    ∀ bound ∈ implBounds ib mapping, (bound.2.2, bound.2.1) ∈ H

def IsSharedCell (ty : Ty) : Prop := ∃ args, nominal ty = some ("SharedCell".toList, args)

/-- A declared type has a trait by an unsafe impl that names it. Without such an impl all its fields have the trait. -/
def NominalHolds (H : Set (Ty × ThreadTrait)) (ty : Ty) (which : ThreadTrait) (name : Text) (args : List Ty) : Prop :=
  ImplHolds env H ty which ∨
    (∀ ib ∈ unsafeImpls env which, unifyTypes env ib.targetType ty [] = none) ∧
      ¬ (which = .Sync ∧ name = "SharedCell".toList) ∧ ∀ held ∈ heldTypes env name args, (held.2, which) ∈ H

def TypeHolds (H : Set (Ty × ThreadTrait)) (ty : Ty) (which : ThreadTrait) : Prop :=
  match ty with
  | .pointer _ _ _ => which = .Owned
  | .closure _ _ => False
  | .borrow inner _ isMut _ => which ≠ .Owned ∧ (inner, if isMut then which else .Sync) ∈ H
  | .ref inner _ => which ≠ .Owned ∧ (inner, .Sync) ∈ H
  | .verified inner | .pinned inner _ => (inner, which) ∈ H
  | ty => ∀ name args, nominal ty = some (name, args) → NominalHolds env H ty which name args

variable {H H' : Set (Ty × ThreadTrait)} {ty : Ty} {which : ThreadTrait}

theorem ImplHolds.mono (hsub : H ⊆ H') (h : ImplHolds env H ty which) : ImplHolds env H' ty which := by
  obtain ⟨ib, hib, mapping, hmapping, hbounds⟩ := h
  exact ⟨ib, hib, mapping, hmapping, fun bound hbound => hsub (hbounds bound hbound)⟩

theorem NominalHolds.mono (hsub : H ⊆ H') {name : Text} {args : List Ty} (h : NominalHolds env H ty which name args) :
    NominalHolds env H' ty which name args :=
  h.imp (ImplHolds.mono env hsub) fun ⟨hnone, hcell, hheld⟩ => ⟨hnone, hcell, fun held hmem => hsub (hheld held hmem)⟩

theorem TypeHolds.mono (hsub : H ⊆ H') (h : TypeHolds env H ty which) : TypeHolds env H' ty which := by
  cases ty with
  | pointer _ _ _ | closure _ _ => exact h
  | borrow inner _ isMut _ | ref inner _ => exact ⟨h.1, hsub h.2⟩
  | verified inner | pinned inner _ => exact hsub (show (inner, which) ∈ H from h)
  | _ => exact fun name args hname => NominalHolds.mono env hsub (h name args hname)

def searchRules : Set (Ty × ThreadTrait) →o Set (Ty × ThreadTrait) where
  toFun H := {p | TypeHolds env H p.1 p.2}
  monotone' _ _ hsub _ hp := TypeHolds.mono env hsub hp

def rules : Set (Ty × ThreadTrait) →o Set (Ty × ThreadTrait) where
  toFun H := {p | ¬ (p.2 = .Sync ∧ IsSharedCell p.1) ∧ TypeHolds env H p.1 p.2}
  monotone' _ _ hsub _ hp := ⟨hp.1, TypeHolds.mono env hsub hp.2⟩

end Vx.Threads
