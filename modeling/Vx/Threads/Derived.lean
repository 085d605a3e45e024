import Vx.Threads.Search

namespace Vx.Threads

open Finset
open Lib.Inquiry
open Lib.TaggedKey (Text)

section
variable {env : Env}

def assumed (visiting : List (Ty × ThreadTrait)) : Set (Ty × ThreadTrait) :=
  {p | p ∈ visiting ∧ (nominal p.1).isSome}

variable {visiting : List (Ty × ThreadTrait)} {ty : Ty} {which : ThreadTrait}

theorem assumed_cons {d : Text × List Ty}
    (hd : nominal ty = some d) : assumed ((ty, which) :: visiting) = insert (ty, which) (assumed visiting) := by
  ext p
  constructor
  · rintro ⟨hp, hnominal⟩
    rcases List.mem_cons.mp hp with rfl | hp
    · exact Or.inl rfl
    · exact Or.inr ⟨hp, hnominal⟩
  · rintro (rfl | ⟨hp, hnominal⟩)
    · exact ⟨List.mem_cons_self, by rw [hd]; rfl⟩
    · exact ⟨List.mem_cons_of_mem _ hp, hnominal⟩

def Call.Holds (env : Env) (call : Call) : Prop :=
  (call.ty, call.which) ∈ assuming (searchRules env) (assumed call.visiting)

variable {name : Text} {ib : ImplBlock}

theorem boundsFail_holds {mapping : Bindings} : (boundsFail env which visiting ib mapping).Holds (Call.Holds env) ↔
      ∀ bound ∈ implBounds ib mapping,
        (bound.2.2, bound.2.1) ∈ assuming (searchRules env) (assumed visiting) := by
  rw [boundsFail, Check.all_holds, List.forall_mem_map]
  rfl

variable {ibs : List ImplBlock}

theorem implsVerdict_none :
    implsVerdict env ty which visiting ibs = none ↔ ∀ ib ∈ ibs, unifyTypes env ib.targetType ty [] = none := by
  induction ibs with
  | nil => simp [implsVerdict]
  | cons ib ibs ih =>
    rw [implsVerdict, List.forall_mem_cons]
    cases hunify : unifyTypes env ib.targetType ty [] with
    | none => simpa using ih
    | some mapping => cases implsVerdict env ty which visiting ibs <;> simp

theorem implsVerdict_some {verdict : Failure} (h : implsVerdict env ty which visiting ibs = some verdict) :
    verdict.Holds (Call.Holds env) ↔ ∃ ib ∈ ibs, ∃ mapping, unifyTypes env ib.targetType ty [] = some mapping ∧
      ∀ bound ∈ implBounds ib mapping,
        (bound.2.2, bound.2.1) ∈ assuming (searchRules env) (assumed visiting) := by
  induction ibs generalizing verdict with
  | nil => cases h
  | cons ib ibs ih =>
    simp only [List.mem_cons, exists_eq_or_imp]
    rw [implsVerdict] at h
    cases hunify : unifyTypes env ib.targetType ty [] with
    | none =>
      rw [hunify] at h
      rw [ih h]
      simp
    | some mapping =>
      rw [hunify] at h
      cases hlater : implsVerdict env ty which visiting ibs with
      | none =>
        rw [hlater] at h
        cases h
        rw [boundsFail_holds]
        have hnone := implsVerdict_none.mp hlater
        simp +contextual [hnone]
      | some later =>
        rw [hlater] at h
        cases h
        rw [Check.Holds, boundsFail_holds, ih hlater]
        simp

variable {args : List Ty}

theorem nominalFailsUnvisited_holds : (nominalFailsUnvisited env ty name args which visiting).Holds (Call.Holds env) ↔
      NominalHolds env (assuming (searchRules env) (assumed visiting)) ty which name args := by
  unfold nominalFailsUnvisited NominalHolds
  cases hverdict : unsafeImplVerdict env ty which visiting with
  | some verdict =>
    have hsome : ¬ ∀ ib ∈ unsafeImpls env which, unifyTypes env ib.targetType ty [] = none := by
      rw [← implsVerdict_none, ← unsafeImplVerdict, hverdict]
      simp
    rw [or_iff_left fun h => hsome h.1]
    exact implsVerdict_some hverdict
  | none =>
    have hnone := implsVerdict_none.mp hverdict
    have himpl : ¬ ImplHolds env (assuming (searchRules env) (assumed visiting)) ty which := by
      rintro ⟨ib, hib, mapping, hmapping, -⟩
      rw [hnone ib hib] at hmapping
      cases hmapping
    rw [or_iff_right himpl, and_iff_right hnone]
    split_ifs with hcell
    · simp [Check.Holds, hcell]
    · rw [and_iff_right hcell, Check.all_holds, List.forall_mem_map]
      rfl

theorem typeHolds_of_nominal {H : Set (Ty × ThreadTrait)} (hty : nominal ty = some (name, args)) :
    TypeHolds env H ty which ↔ NominalHolds env H ty which name args := by
  have hrule : TypeHolds env H ty which ↔
      ∀ name args, nominal ty = some (name, args) → NominalHolds env H ty which name args := by
    cases ty with
    | struct _ | enum _ | genericInstance _ _ => rfl
    | _ => cases hty
  rw [hrule]
  constructor
  · intro h
    exact h name args hty
  · intro h name' args' hty'
    cases hty.symm.trans hty'
    exact h

theorem nominalThreadTraitFails_holds (hty : nominal ty = some (name, args)) :
    (nominalThreadTraitFails env visiting ty which).Holds (Call.Holds env) ↔
      (ty, which) ∈ assuming (searchRules env) (assumed visiting) := by
  rw [mem_assuming_iff, ← assumed_cons hty, nominalThreadTraitFails, hty]
  have hmem : (ty, which) ∈ assumed visiting ↔ (ty, which) ∈ visiting := and_iff_left (by rw [hty]; rfl)
  rw [hmem]
  split_ifs with hvisiting
  · simp [Check.Holds, hvisiting]
  · rw [or_iff_right hvisiting, nominalFailsUnvisited_holds]
    exact (typeHolds_of_nominal hty).symm

theorem mem_assuming_of_none (hty : nominal ty = none) : (ty, which) ∈ assuming (searchRules env) (assumed visiting) ↔
      TypeHolds env (assuming (searchRules env) (assumed visiting)) ty which := by
  have hvisiting : (ty, which) ∉ assumed visiting := by
    rintro ⟨-, hsome⟩
    rw [hty] at hsome
    cases hsome
  constructor
  · intro h
    rw [assuming_eq] at h
    exact h.resolve_left hvisiting
  · intro h
    rw [assuming_eq]
    exact Or.inr h

theorem check_holds (call : Call) : call.Holds env ↔ (call.check env).Holds (Call.Holds env) := by
  obtain ⟨visiting, ty, which⟩ := call
  rw [Call.Holds, Call.check]
  cases hty : nominal ty with
  | some d =>
    rw [← nominalThreadTraitFails_holds hty]
    cases ty with
    | struct _ | enum _ | genericInstance _ _ => rfl
    | _ => cases hty
  | none =>
    rw [mem_assuming_of_none hty]
    cases ty with
    | pointer _ _ _ =>
      simp only [TypeHolds, threadTraitFails]
      split_ifs with howned <;> simp [Check.Holds, howned]
    | closure _ _ | verified inner | pinned inner _ => rfl
    | borrow inner _ isMut _ =>
      simp only [TypeHolds, threadTraitFails]
      cases isMut <;> by_cases howned : which = .Owned <;> simp [Check.Holds, Call.Holds, howned]
    | ref inner _ =>
      simp only [TypeHolds, threadTraitFails]
      split_ifs with howned <;> simp [Check.Holds, Call.Holds, howned]
    | _ => simp [TypeHolds, threadTraitFails, nominalThreadTraitFails, hty, Check.Holds]

theorem whyNotThreadTrait_none {fuel : ℕ} {why : Option String}
    (h : whyNotThreadTrait env fuel ty which = some why) : why = none ↔ (ty, which) ∈ (searchRules env).gfp := by
  have hempty : assumed [] = ∅ := by
    ext p
    simp [assumed]
  rw [answer_right check_holds h, Call.Holds, hempty, assuming_empty]

def EndlessCalls (env : Env) (ty : Ty) (which : ThreadTrait) : Prop :=
  Endless (Call.check env) (Call.Holds env) ⟨[], ty, which⟩

def Parts (env : Env) (ty : Ty) (which : ThreadTrait) : Set (Ty × ThreadTrait) :=
  match ty with
  | .borrow inner _ isMut _ => {(inner, if isMut then which else .Sync)}
  | .ref inner _ => {(inner, .Sync)}
  | .verified inner | .pinned inner _ => {(inner, which)}
  | ty => {p |
      (∃ ib ∈ unsafeImpls env which, ∃ mapping, unifyTypes env ib.targetType ty [] = some mapping ∧
        ∃ bound ∈ implBounds ib mapping, bound.2 = (p.2, p.1)) ∨
      ∃ d, nominal ty = some d ∧ p.2 = which ∧ ∃ held ∈ heldTypes env d.1 d.2, held.2 = p.1}

variable {H : Call → Prop} {q : Call}

def AskedBy (ib : ImplBlock) (mapping : Bindings) (ty : Ty) (which : ThreadTrait) : Prop :=
  ∃ bound ∈ implBounds ib mapping, bound.2 = (which, ty)

def ImplAsks (env : Env) (ibs : List ImplBlock) (ty : Ty) (q : Call) : Prop :=
  ∃ ib ∈ ibs, ∃ mapping, unifyTypes env ib.targetType ty [] = some mapping ∧ AskedBy ib mapping q.ty q.which

theorem boundsFail_asks {ib : ImplBlock} {mapping : Bindings} (h : (boundsFail env which visiting ib mapping).Asks H q) :
    q.visiting = visiting ∧ AskedBy ib mapping q.ty q.which := by
  obtain ⟨c, hc, hasks⟩ := Check.all_asks h
  obtain ⟨bound, hbound, rfl⟩ := List.mem_map.mp hc
  rw [show q = ⟨visiting, bound.2.2, bound.2.1⟩ from hasks]
  exact ⟨rfl, bound, hbound, rfl⟩

theorem implsVerdict_asks {ty : Ty} {ibs : List ImplBlock} {verdict : Failure}
    (hverdict : implsVerdict env ty which visiting ibs = some verdict) (h : verdict.Asks H q) :
    q.visiting = visiting ∧ ImplAsks env ibs ty q := by
  induction ibs generalizing verdict with
  | nil => cases hverdict
  | cons ib ibs ih =>
    have hlater {verdict : Failure} (hverdict : implsVerdict env ty which visiting ibs = some verdict)
        (hasks : verdict.Asks H q) : q.visiting = visiting ∧ ImplAsks env (ib :: ibs) ty q := by
      obtain ⟨hvisiting, ib', hib', hrest⟩ := ih hverdict hasks
      exact ⟨hvisiting, ib', List.mem_cons_of_mem ib hib', hrest⟩
    rw [implsVerdict] at hverdict
    cases hunify : unifyTypes env ib.targetType ty [] with
    | none =>
      rw [hunify] at hverdict
      exact hlater hverdict h
    | some mapping =>
      have hhere (hasks : (boundsFail env which visiting ib mapping).Asks H q) :
          q.visiting = visiting ∧ ImplAsks env (ib :: ibs) ty q := by
        obtain ⟨hvisiting, hbound⟩ := boundsFail_asks hasks
        exact ⟨hvisiting, ib, List.mem_cons_self, mapping, hunify, hbound⟩
      rw [hunify] at hverdict
      cases hrest : implsVerdict env ty which visiting ibs with
      | none =>
        rw [hrest] at hverdict
        cases hverdict
        exact hhere h
      | some later =>
        rw [hrest] at hverdict
        cases hverdict
        rcases h with hasks | ⟨-, hasks⟩
        · exact hhere hasks
        · exact hlater hrest hasks

theorem check_asks {call : Call} (h : (call.check env).Asks H q) : (q.ty, q.which) ∈ Parts env call.ty call.which ∧
      (q.visiting = call.visiting ∧ sizeOf q.ty < sizeOf call.ty ∨
        q.visiting = (call.ty, call.which) :: call.visiting ∧ (call.ty, call.which) ∉ call.visiting) := by
  obtain ⟨visiting, ty, which⟩ := call
  rw [Call.check] at h
  have hnominal : (nominalThreadTraitFails env visiting ty which).Asks H q →
      (ImplAsks env (unsafeImpls env which) ty q ∨
        ∃ d, nominal ty = some d ∧ q.which = which ∧ ∃ held ∈ heldTypes env d.1 d.2, held.2 = q.ty) ∧
      (q.visiting = visiting ∧ sizeOf q.ty < sizeOf ty ∨
        q.visiting = (ty, which) :: visiting ∧ (ty, which) ∉ visiting) := by
    intro h
    unfold nominalThreadTraitFails at h
    split at h
    · exact h.elim
    next name args hty =>
      split_ifs at h with hvisiting
      · exact h.elim
      unfold nominalFailsUnvisited at h
      split at h
      next verdict hverdict =>
        obtain ⟨hq, himpl⟩ := implsVerdict_asks hverdict h
        exact ⟨Or.inl himpl, Or.inr ⟨hq, hvisiting⟩⟩
      next =>
        split_ifs at h
        · exact h.elim
        obtain ⟨c, hc, hasks⟩ := Check.all_asks h
        obtain ⟨held, hheld, rfl⟩ := List.mem_map.mp hc
        rw [show q = ⟨(ty, which) :: visiting, held.2, which⟩ from hasks]
        exact ⟨Or.inr ⟨(name, args), hty, rfl, held, hheld, rfl⟩, Or.inr ⟨rfl, hvisiting⟩⟩
  cases ty with
  | struct _ | enum _ | genericInstance _ _ => exact hnominal h
  | borrow inner _ isMut _ =>
    by_cases howned : which = .Owned
    · simp [threadTraitFails, howned, Check.Asks] at h
    have hq : q = ⟨visiting, inner, if isMut then which else .Sync⟩ := by
      cases isMut <;> simpa [threadTraitFails, howned, Check.Asks] using h
    rw [hq]
    exact ⟨rfl, Or.inl ⟨rfl, by simp; omega⟩⟩
  | ref inner _ =>
    by_cases howned : which = .Owned
    · simp [threadTraitFails, howned, Check.Asks] at h
    have hq : q = ⟨visiting, inner, .Sync⟩ := by
      simpa [threadTraitFails, howned, Check.Asks] using h
    rw [hq]
    exact ⟨rfl, Or.inl ⟨rfl, by simp; omega⟩⟩
  | verified inner =>
    rw [show q = _ from h]
    exact ⟨rfl, Or.inl ⟨rfl, by simp⟩⟩
  | pinned inner _ =>
    rw [show q = _ from h]
    exact ⟨rfl, Or.inl ⟨rfl, by simp; omega⟩⟩
  | pointer _ _ _ =>
    simp only [threadTraitFails] at h
    split_ifs at h <;> exact h.elim
  | _ => exact h.elim

theorem search_answers (h : ¬ EndlessCalls env ty which) : ∃ fuel why, whyNotThreadTrait env fuel ty which = some why ∧
    (why = none ↔ (ty, which) ∈ (searchRules env).gfp) := by
  obtain ⟨fuel, why, hwhy⟩ := (ends_iff check_holds).mpr h
  exact ⟨fuel, why, hwhy, whyNotThreadTrait_none hwhy⟩

variable {S : Finset (Ty × ThreadTrait)} (hparts : ∀ p ∈ S, ∀ p' ∈ Parts env p.1 p.2, p' ∈ S) (hty : (ty, which) ∈ S)
include hparts hty

theorem not_endlessCalls_of_finite : ¬ EndlessCalls env ty which := by
  rintro ⟨chain, hstart, hchain⟩
  have hmem : ∀ n, ((chain n).ty, (chain n).which) ∈ S := by
    intro n
    induction n with
    | zero => rwa [hstart]
    | succ n ih => exact hparts _ ih _ (check_asks (hchain n)).1
  let unvisited (call : Call) : ℕ := (S.filter (· ∉ call.visiting)).card
  have hdecreases : ∀ n, Prod.Lex (· < ·) (· < ·) (unvisited (chain (n + 1)), sizeOf (chain (n + 1)).ty)
      (unvisited (chain n), sizeOf (chain n).ty) := by
    intro n
    rcases (check_asks (hchain n)).2 with ⟨hvisiting, hsize⟩ | ⟨hvisiting, hnew⟩
    · have heq : unvisited (chain (n + 1)) = unvisited (chain n) := by
        show (S.filter (· ∉ (chain (n + 1)).visiting)).card = _
        rw [hvisiting]
      rw [heq]
      exact Prod.Lex.right _ hsize
    · apply Prod.Lex.left
      apply card_lt_card
      rw [ssubset_iff_of_subset]
      · exact ⟨_, Finset.mem_filter.mpr ⟨hmem n, hnew⟩, by simp [hvisiting]⟩
      · intro p hp
        rw [mem_filter, hvisiting] at hp
        exact Finset.mem_filter.mpr ⟨hp.1, fun hin => hp.2 (List.mem_cons_of_mem _ hin)⟩
  have hwf : WellFounded (Prod.Lex (fun m n : ℕ => m < n) fun m n : ℕ => m < n) :=
    (Prod.lex inferInstance inferInstance).wf
  exact (wellFounded_iff_isEmpty_descending_chain.mp hwf).false
    ⟨fun n => (unvisited (chain n), sizeOf (chain n).ty), hdecreases⟩

/-- A search with finitely many parts answers, and as the greatest relation does that its rules keep. -/
theorem finite_search_answers : ∃ fuel why, whyNotThreadTrait env fuel ty which = some why ∧
    (why = none ↔ (ty, which) ∈ (searchRules env).gfp) :=
  search_answers (not_endlessCalls_of_finite hparts hty)

end

/-- The types and traits that are parts of a type, of its parts, and so on. -/
def reached (env : Env) (ty : Ty) (which : ThreadTrait) : Set (Ty × ThreadTrait) :=
  {p | Relation.ReflTransGen (fun p p' => p' ∈ Parts env p.1 p.2) (ty, which) p}

def boxOf (ty : Ty) : Ty := .genericInstance (.struct "Box".toList) [ty]

def nestOf (ty : Ty) : Ty := .genericInstance (.struct "Nest".toList) [ty]

def sharedCellOf (ty : Ty) : Ty := .genericInstance (.struct "SharedCell".toList) [ty]

def node : Ty := .struct "Node".toList

/-- The types `struct Nest<T> { next : Box<Nest<Box<T>>> }` and `struct Node { next : Box<Node> }`, with the `Box` and the
`SharedCell` of the library. -/
def nested (syncImpls : List ImplBlock) : Env where
  host := asciiHost
  structs :=
    [("Box".toList, ⟨[.type ['T'] []], [(['p'], .pointer (.generic ['T']) none true)]⟩),
      ("Nest".toList, ⟨[.type ['T'] []], [("next".toList, boxOf (nestOf (boxOf (.generic ['T']))))]⟩),
      ("Node".toList, ⟨[], [("next".toList, boxOf node)]⟩),
      ("SharedCell".toList, ⟨[.type ['T'] []], [(['v'], .generic ['T'])]⟩)]
  enums := []
  impls :=
    [("Send".toList, [⟨[.type ['T'] [.Send]], boxOf (.generic ['T']), true⟩]),
      ("Sync".toList, syncImpls)]
  memoryVariable _ := none
  pendingMemoryVars _ := false
  pendingTopoVars _ := false
  closureSignatures _ := none
  substituteOther _ debug := debug
  display _ := ""

/-- With an `unsafe impl<T> Sync for SharedCell<T>`. -/
def growing : Env := nested [⟨[.type ['T'] []], sharedCellOf (.generic ['T']), true⟩]

def boxed : ℕ → Ty
  | 0 => .scalar .i32
  | n + 1 => boxOf (boxed n)

def visited (k : ℕ) : Ty :=
  if k % 2 = 0 then nestOf (boxed (k / 2)) else boxOf (nestOf (boxed (k / 2 + 1)))

variable {H : Call → Prop} {visiting : List (Ty × ThreadTrait)}

def nodeParts : Finset (Ty × ThreadTrait) :=
  {(node, .Send), (boxOf node, .Send), (.pointer node none true, .Send)}

theorem nodeParts_closed (syncImpls : List ImplBlock) :
    ∀ p ∈ nodeParts, ∀ p' ∈ Parts (nested syncImpls) p.1 p.2, p' ∈ nodeParts := by
  simp only [nodeParts, Finset.forall_mem_insert, Finset.mem_singleton, forall_eq]
  refine ⟨?_, ?_, ?_⟩
  · rintro p (⟨_, hib, mapping, hmapping, -⟩ | ⟨_, hd, hwhich, _, hheld, hty⟩)
    · obtain rfl := List.mem_singleton.mp hib
      cases hmapping
    · cases hd
      obtain rfl := List.mem_singleton.mp hheld
      rw [show p = (boxOf node, .Send) from Prod.ext hty.symm hwhich]
      simp
  · rintro p (⟨_, hib, mapping, hmapping, bound, hbound, hp⟩ | ⟨_, hd, hwhich, _, hheld, hty⟩)
    · obtain rfl := List.mem_singleton.mp hib
      cases hmapping
      obtain rfl := List.mem_singleton.mp hbound
      rw [show p = (node, .Send) from Prod.ext (congrArg Prod.snd hp).symm (congrArg Prod.fst hp).symm]
      simp
    · cases hd
      obtain rfl := List.mem_singleton.mp hheld
      rw [show p = (.pointer node none true, .Send) from Prod.ext hty.symm hwhich]
      simp
  · rintro p (⟨_, hib, mapping, hmapping, -⟩ | ⟨_, hd, -⟩)
    · obtain rfl := List.mem_singleton.mp hib
      cases hmapping
    · cases hd

theorem finite_search_answers_node : ∃ fuel why, whyNotThreadTrait growing fuel node .Send = some why ∧
    (why = none ↔ (node, .Send) ∈ (searchRules growing).gfp) :=
  finite_search_answers (S := nodeParts) (nodeParts_closed _) (Finset.mem_insert_self _ _)

end Vx.Threads
