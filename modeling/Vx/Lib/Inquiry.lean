import Mathlib

/-!
Checks that ask questions, where the answer to a question is a check of its own. A search answers a question by running
its check. It ends where no chain of questions is endless, and then it answers as the greatest relation does that the
checks keep.
-/

namespace Vx.Lib.Inquiry

universe u v

section

/-- A check passes or fails with a reason. The second part of `both` is made where the first one passes, the second
part of `either` where it fails. -/
inductive Check (Q : Type u) (W : Type v)
  | pass
  | fail (why : W)
  | ask (q : Q) (explain : W → W)
  | both (first second : Check Q W)
  | either (first second : Check Q W)

variable {Q : Type u} {W : Type v}

namespace Check

def run (answer : Q → Option (Option W)) : Check Q W → Option (Option W)
  | pass => some none
  | fail why => some (some why)
  | ask q explain => (answer q).map (Option.map explain)
  | both first second =>
    match first.run answer with
    | none => none
    | some none => second.run answer
    | some (some why) => some (some why)
  | either first second =>
    match first.run answer with
    | none => none
    | some none => some none
    | some (some _) => second.run answer

def Holds (H : Q → Prop) : Check Q W → Prop
  | pass => True
  | fail _ => False
  | ask q _ => H q
  | both first second => first.Holds H ∧ second.Holds H
  | either first second => first.Holds H ∨ second.Holds H

def Asks (H : Q → Prop) : Check Q W → Q → Prop
  | pass, _ => False
  | fail _, _ => False
  | ask q' _, q => q = q'
  | both first second, q => first.Asks H q ∨ first.Holds H ∧ second.Asks H q
  | either first second, q => first.Asks H q ∨ ¬ first.Holds H ∧ second.Asks H q

def all : List (Check Q W) → Check Q W
  | [] => pass
  | c :: cs => both c (all cs)

variable {H : Q → Prop} {cs : List (Check Q W)}

theorem all_holds : (all cs).Holds H ↔ ∀ c ∈ cs, c.Holds H := by
  induction cs with
  | nil => simp [all, Holds]
  | cons c cs ih => simp [all, Holds, ih]

theorem all_asks {q : Q} (h : (all cs).Asks H q) : ∃ c ∈ cs, c.Asks H q := by
  induction cs with
  | nil => exact h.elim
  | cons c cs ih =>
    rcases h with h | ⟨-, h⟩
    · exact ⟨c, List.mem_cons_self, h⟩
    · obtain ⟨d, hd, hasks⟩ := ih h
      exact ⟨d, List.mem_cons_of_mem c hd, hasks⟩

variable {c : Check Q W}

variable {answer answer' : Q → Option (Option W)} {r : Option W}

theorem run_right (hanswer : ∀ q r, answer q = some r → (r = none ↔ H q))
    (h : c.run answer = some r) : r = none ↔ c.Holds H := by
  induction c generalizing r with
  | pass | fail why =>
    cases h
    simp [Holds]
  | ask q explain =>
    obtain ⟨a, ha, rfl⟩ := Option.map_eq_some_iff.mp h
    rw [Option.map_eq_none_iff]
    exact hanswer q a ha
  | both first second ihfirst ihsecond =>
    unfold run at h
    split at h
    next => cases h
    next hfirst =>
      have hholds := (ihfirst hfirst).mp rfl
      rw [ihsecond h, Holds, and_iff_right hholds]
    next why hfirst =>
      cases h
      have hfails : ¬ first.Holds H := fun hholds => by simpa using (ihfirst hfirst).mpr hholds
      simp [Holds, hfails]
  | either first second ihfirst ihsecond =>
    unfold run at h
    split at h
    next => cases h
    next hfirst =>
      cases h
      simp [Holds, (ihfirst hfirst).mp rfl]
    next why hfirst =>
      have hfails : ¬ first.Holds H := fun hholds => by simpa using (ihfirst hfirst).mpr hholds
      rw [ihsecond h, Holds, or_iff_right hfails]

theorem run_mono (hanswer : ∀ q r, answer q = some r → answer' q = some r)
    (h : c.run answer = some r) : c.run answer' = some r := by
  induction c generalizing r with
  | pass | fail why => exact h
  | ask q explain =>
    obtain ⟨a, ha, rfl⟩ := Option.map_eq_some_iff.mp h
    exact Option.map_eq_some_iff.mpr ⟨a, hanswer q a ha, rfl⟩
  | both first second ihfirst ihsecond =>
    unfold run at h ⊢
    split at h
    next => cases h
    next hfirst => simpa [ihfirst hfirst] using ihsecond h
    next why hfirst => simpa [ihfirst hfirst] using h
  | either first second ihfirst ihsecond =>
    unfold run at h ⊢
    split at h
    next => cases h
    next hfirst => simpa [ihfirst hfirst] using h
    next why hfirst => simpa [ihfirst hfirst] using ihsecond h

theorem answer_of_asks (hanswer : ∀ q r, answer q = some r → (r = none ↔ H q))
    (h : c.run answer = some r) {q : Q} (hasks : c.Asks H q) : ∃ a, answer q = some a := by
  induction c generalizing r with
  | pass | fail why => exact hasks.elim
  | ask q' explain =>
    obtain ⟨a, ha, -⟩ := Option.map_eq_some_iff.mp h
    rw [show q = q' from hasks]
    exact ⟨a, ha⟩
  | both first second ihfirst ihsecond =>
    unfold run at h
    split at h
    next => cases h
    next hfirst =>
      rcases hasks with hasks | ⟨-, hasks⟩
      · exact ihfirst hfirst hasks
      · exact ihsecond h hasks
    next why hfirst =>
      rcases hasks with hasks | ⟨hholds, -⟩
      · exact ihfirst hfirst hasks
      · simpa using (run_right hanswer hfirst).mpr hholds
  | either first second ihfirst ihsecond =>
    unfold run at h
    split at h
    next => cases h
    next hfirst =>
      rcases hasks with hasks | ⟨hfails, -⟩
      · exact ihfirst hfirst hasks
      · exact absurd ((run_right hanswer hfirst).mp rfl) hfails
    next why hfirst =>
      rcases hasks with hasks | ⟨-, hasks⟩
      · exact ihfirst hfirst hasks
      · exact ihsecond h hasks

end Check

end

section
variable {Q : Type u} {W : Type v} (body : Q → Check Q W)

def answer : ℕ → Q → Option (Option W)
  | 0, _ => none
  | n + 1, q => (body q).run (answer n)

variable {n : ℕ} {q : Q} {r : Option W}

theorem answer_succ (h : answer body n q = some r) : answer body (n + 1) q = some r := by
  induction n generalizing q r with
  | zero => cases h
  | succ n ih => exact Check.run_mono (fun q r => ih) h

theorem answer_mono {m : ℕ} (hnm : n ≤ m) (h : answer body n q = some r) : answer body m q = some r := by
  induction hnm with
  | refl => exact h
  | step _ ih => exact answer_succ body ih

variable {body} {H : Q → Prop} (hbody : ∀ q, H q ↔ (body q).Holds H)
include hbody in
theorem answer_right (h : answer body n q = some r) : r = none ↔ H q := by
  induction n generalizing q r with
  | zero => cases h
  | succ n ih =>
    rw [hbody]
    exact Check.run_right (fun q r => ih) h

include hbody in
theorem run_of_asks {c : Check Q W} (h : ∀ q, c.Asks H q → ∃ n r, answer body n q = some r) :
    ∃ n r, c.run (answer body n) = some r := by
  induction c with
  | pass | fail why => exact ⟨0, _, rfl⟩
  | ask q explain =>
    obtain ⟨n, r, hr⟩ := h q rfl
    exact ⟨n, r.map explain, Option.map_eq_some_iff.mpr ⟨r, hr, rfl⟩⟩
  | both first second ihfirst ihsecond =>
    obtain ⟨n, r, hr⟩ := ihfirst fun q hq => h q (Or.inl hq)
    have hright := Check.run_right (fun q r => answer_right hbody) hr
    cases r with
    | some why => exact ⟨n, some why, by simp [Check.run, hr]⟩
    | none =>
      obtain ⟨m, r, hm⟩ := ihsecond fun q hq => h q (Or.inr ⟨hright.mp rfl, hq⟩)
      have hfirst := Check.run_mono (fun q r => answer_mono body (Nat.le_max_left n m)) hr
      have hsecond := Check.run_mono (fun q r => answer_mono body (Nat.le_max_right n m)) hm
      exact ⟨max n m, r, by simp [Check.run, hfirst, hsecond]⟩
  | either first second ihfirst ihsecond =>
    obtain ⟨n, r, hr⟩ := ihfirst fun q hq => h q (Or.inl hq)
    have hright := Check.run_right (fun q r => answer_right hbody) hr
    cases r with
    | none => exact ⟨n, none, by simp [Check.run, hr]⟩
    | some why =>
      have hfails : ¬ first.Holds H := fun hholds => by simpa using hright.mpr hholds
      obtain ⟨m, r, hm⟩ := ihsecond fun q hq => h q (Or.inr ⟨hfails, hq⟩)
      have hfirst := Check.run_mono (fun q r => answer_mono body (Nat.le_max_left n m)) hr
      have hsecond := Check.run_mono (fun q r => answer_mono body (Nat.le_max_right n m)) hm
      exact ⟨max n m, r, by simp [Check.run, hfirst, hsecond]⟩

include hbody in
theorem ends_iff_acc : (∃ n r, answer body n q = some r) ↔ Acc (fun q' q => (body q).Asks H q') q := by
  constructor
  · rintro ⟨n, r, h⟩
    induction n generalizing q r with
    | zero => cases h
    | succ n ih =>
      refine Acc.intro q fun q' hasks => ?_
      obtain ⟨r', hr'⟩ := Check.answer_of_asks (fun q r => answer_right hbody) h hasks
      exact ih r' hr'
  · intro hacc
    induction hacc with
    | intro q _ ih =>
      obtain ⟨n, r, h⟩ := run_of_asks hbody ih
      exact ⟨n + 1, r, h⟩

def Endless (body : Q → Check Q W) (H : Q → Prop) (q : Q) : Prop :=
  ∃ chain : ℕ → Q, chain 0 = q ∧ ∀ n, (body (chain n)).Asks H (chain (n + 1))

include hbody in
theorem ends_iff : (∃ n r, answer body n q = some r) ↔ ¬ Endless body H q := by
  rw [ends_iff_acc hbody, ← not_iff_not, not_not, not_acc_iff_exists_descending_chain]
  rfl

end

variable {α : Type u} (F : Set α →o Set α)

def assuming (V : Set α) : Set α :=
  OrderHom.gfp ⟨fun Y => V ∪ F Y, fun _ _ h => Set.union_subset_union_right V (F.monotone h)⟩

theorem assuming_eq (V : Set α) : assuming F V = V ∪ F (assuming F V) := (OrderHom.map_gfp _).symm

variable {V : Set α}

theorem subset_assuming {Y : Set α} (h : Y ⊆ V ∪ F Y) : Y ⊆ assuming F V := OrderHom.le_gfp _ h

theorem assuming_empty : assuming F ∅ = F.gfp := by
  apply Set.Subset.antisymm
  · apply OrderHom.le_gfp
    intro x hx
    rw [assuming_eq, Set.empty_union] at hx
    exact hx
  · apply subset_assuming
    rw [Set.empty_union, OrderHom.map_gfp]

theorem assuming_mono {V' : Set α} (h : V ⊆ V') : assuming F V ⊆ assuming F V' := by
  apply subset_assuming
  intro x hx
  rw [assuming_eq] at hx
  exact hx.imp (fun hx => h hx) id

theorem mem_assuming_iff {x : α} : x ∈ assuming F V ↔ x ∈ V ∨ x ∈ F (assuming F (insert x V)) := by
  constructor
  · intro hx
    rw [assuming_eq] at hx
    exact hx.imp id fun hx => F.monotone (assuming_mono F (Set.subset_insert x V)) hx
  · rintro (hx | hx)
    · rw [assuming_eq]
      exact Or.inl hx
    have hsub : assuming F (insert x V) ⊆ assuming F V := by
      apply subset_assuming
      intro y hy
      rw [assuming_eq] at hy
      rcases hy with (rfl | hy) | hy
      · exact Or.inr hx
      · exact Or.inl hy
      · exact Or.inr hy
    rw [assuming_eq]
    exact Or.inr (F.monotone hsub hx)

end Vx.Lib.Inquiry
