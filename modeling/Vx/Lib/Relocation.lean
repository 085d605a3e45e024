import Mathlib

/-!
A program that reaches memory only through the elements of views, and what it does when each byte has another home.
-/

namespace Vx.Lib.Relocation

open List
open Function (update update_of_ne update_self)

inductive Program (β : Type)
  | done
  | read (view : ℕ) (index : List ℕ) (next : List β → Program β)
  | write (view : ℕ) (index : List ℕ) (value : List β) (next : Program β)

variable {α α' β : Type}

structure Relocates (home : α → Option α') (locate : ℕ → List ℕ → Option (List α))
    (locate' : ℕ → List ℕ → Option (List α')) : Prop where
  injective : ∀ a b c, home a = some c → home b = some c → a = b
  located : ∀ view index, locate view index = none ∧ locate' view index = none ∨
    ∃ as bs, locate view index = some as ∧ locate' view index = some bs ∧ as.map home = bs.map some

def Agree (home : α → Option α') (mem : α → β) (mem' : α' → β) : Prop := ∀ a b, home a = some b → mem' b = mem a

section
open Classical in
noncomputable def homeOf (lives : α → α' → Prop) (a : α) : Option α' :=
  if h : ∃ b, lives a b then some h.choose else none

variable {lives : α → α' → Prop}

theorem homeOf_eq_some (hunique : ∀ a b c, lives a b → lives a c → b = c) {a : α} {b : α'} :
    homeOf lives a = some b ↔ lives a b := by
  unfold homeOf
  split
  next h =>
    rw [Option.some.injEq]
    exact ⟨fun heq => heq ▸ h.choose_spec, fun hb => hunique a _ _ h.choose_spec hb⟩
  next h => simpa using fun hb => h ⟨b, hb⟩

theorem homeOf_eq_none {a : α} : homeOf lives a = none ↔ ∀ b, ¬ lives a b := by
  unfold homeOf
  split <;> simp_all

end

variable {home : α → Option α'} {locate : ℕ → List ℕ → Option (List α)} {locate' : ℕ → List ℕ → Option (List α')}
  {mem : α → β} {mem' : α' → β} {as : List α}

theorem Agree.map_eq (h : Agree home mem mem') {bs : List α'} (hab : as.map home = bs.map some) :
    bs.map mem' = as.map mem := by
  induction as generalizing bs with
  | nil => simp_all
  | cons a as ih =>
    cases bs with
    | nil => simp at hab
    | cons b bs =>
      simp only [map_cons, List.cons.injEq] at hab
      rw [map_cons, map_cons, h a b hab.1, ih hab.2]

variable [DecidableEq α]

def poke (mem : α → β) : List α → List β → α → β
  | a :: as, v :: vs => poke (update mem a v) as vs
  | _, _ => mem

def Program.run (locate : ℕ → List ℕ → Option (List α)) : Program β → (α → β) → α → β
  | .done, mem => mem
  | .read view index next, mem =>
    match locate view index with
    | some bytes => (next (bytes.map mem)).run locate mem
    | none => (next []).run locate mem
  | .write view index value next, mem =>
    match locate view index with
    | some bytes => next.run locate (poke mem bytes value)
    | none => next.run locate mem

variable {a : α}

theorem poke_of_notMem (mem : α → β) (vs : List β) (ha : a ∉ as) : poke mem as vs a = mem a := by
  induction as generalizing mem vs with
  | nil => cases vs <;> rfl
  | cons a' as ih =>
    rw [mem_cons, not_or] at ha
    cases vs with
    | nil => rfl
    | cons v vs =>
      rw [poke, ih _ _ ha.2, update_of_ne ha.1]

theorem Relocates.run_outside (h : Relocates home locate locate') (program : Program β) (mem : α → β)
    (ha : home a = none) : program.run locate mem a = mem a := by
  induction program generalizing mem with
  | done => rfl
  | read view index next ih => cases hl : locate view index <;> simp only [Program.run, hl, ih]
  | write view index value next ih =>
    rcases h.located view index with ⟨hnone, -⟩ | ⟨as, bs, has, -, hab⟩
    · simp only [Program.run, hnone, ih]
    have hnot : a ∉ as := by
      intro hin
      have hmem : none ∈ bs.map some := hab ▸ ha ▸ mem_map_of_mem hin
      simp at hmem
    simp only [Program.run, has, ih, poke_of_notMem mem value hnot]

variable [DecidableEq α']

theorem Agree.update (h : Agree home mem mem') (hinj : ∀ a b c, home a = some c → home b = some c → a = b)
    {b : α'} (hab : home a = some b) (v : β) : Agree home (update mem a v) (update mem' b v) := by
  intro c d hcd
  by_cases hc : c = a
  · subst hc
    obtain rfl : d = b := Option.some.inj (hcd.symm.trans hab)
    rw [update_self, update_self]
  · have hd : d ≠ b := by
      rintro rfl
      exact hc (hinj c a d hcd hab)
    rw [update_of_ne hc, update_of_ne hd, h c d hcd]

theorem Agree.poke (h : Agree home mem mem') (hinj : ∀ a b c, home a = some c → home b = some c → a = b) {bs : List α'} (hab : as.map home = bs.map some) (vs : List β) :
    Agree home (poke mem as vs) (poke mem' bs vs) := by
  induction as generalizing bs mem mem' vs with
  | nil =>
    obtain rfl : bs = [] := by simpa using hab.symm
    cases vs <;> exact h
  | cons a as ih =>
    cases bs with
    | nil => simp at hab
    | cons b bs =>
      simp only [map_cons, List.cons.injEq] at hab
      cases vs with
      | nil => exact h
      | cons v vs => exact ih (h.update hinj hab.1 v) hab.2 vs

theorem Relocates.run_agree (h : Relocates home locate locate') (program : Program β) (hagree : Agree home mem mem') :
    Agree home (program.run locate mem) (program.run locate' mem') := by
  induction program generalizing mem mem' with
  | done => exact hagree
  | read view index next ih =>
    rcases h.located view index with ⟨hnone, hnone'⟩ | ⟨as, bs, has, hbs, hab⟩
    · simpa only [Program.run, hnone, hnone'] using ih [] hagree
    · simpa only [Program.run, has, hbs, hagree.map_eq hab] using ih _ hagree
  | write view index value next ih =>
    rcases h.located view index with ⟨hnone, hnone'⟩ | ⟨as, bs, has, hbs, hab⟩
    · simpa only [Program.run, hnone, hnone'] using ih hagree
    · simpa only [Program.run, has, hbs] using ih (hagree.poke h.injective hab value)

end Vx.Lib.Relocation
