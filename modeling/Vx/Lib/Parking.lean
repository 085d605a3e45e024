import Mathlib

/-!
Tasks that share a memory, sleep while a word of it keeps a value, and wake each other. A sleep may end at any time, and
a wake ends each sleep on its words.
-/

namespace Vx.Lib.Parking

open Function (update)
open Relation (ReflTransGen)

variable {ι M W V κ : Type}

inductive Act (M W V κ : Type)
  | access (f : M → M × κ)
  | wait (word : W) (value : V) (k : κ)
  | wake (words : Set W) (k : κ)

inductive Phase (W V κ : Type)
  | running (k : κ)
  | calling (word : W) (value : V) (k : κ)
  | asleep (word : W) (value : V) (k : κ)
  | waking (words : Set W) (k : κ)

def Phase.cont : Phase W V κ → κ
  | .running k | .calling _ _ k | .asleep _ _ k | .waking _ k => k

structure State (ι M W V κ : Type) where
  mem : M
  tasks : ι → Phase W V κ

structure Program (ι M W V κ : Type) where
  read : M → W → V
  Does : ι → κ → Act M W V κ → Prop

def Phase.Left (p p' : Phase W V κ) : Prop := p' = p ∨ ∃ word value k, p = .asleep word value k ∧ p' = .running k

theorem Phase.Left.refl (p : Phase W V κ) : p.Left p := .inl rfl

theorem Phase.Left.cont {p p' : Phase W V κ} (h : p.Left p') : p'.cont = p.cont := by
  rcases h with rfl | ⟨_, _, _, rfl, rfl⟩ <;> rfl

theorem Phase.Left.asleep {p p' : Phase W V κ} (h : p.Left p') {word : W} {value : V} {k : κ}
    (hp : p' = .asleep word value k) : p = .asleep word value k := by
  rcases h with rfl | ⟨_, _, _, -, rfl⟩
  · exact hp
  · cases hp

variable [DecidableEq ι]

inductive Step (prog : Program ι M W V κ) : State ι M W V κ → State ι M W V κ → Prop
  | access {s : State ι M W V κ} {t : ι} {k : κ} {f : M → M × κ} (ht : s.tasks t = .running k)
      (hact : prog.Does t k (.access f)) :
      Step prog s ⟨(f s.mem).1, update s.tasks t (.running (f s.mem).2)⟩
  | call {s : State ι M W V κ} {t : ι} {k k' : κ} {word : W} {value : V} (ht : s.tasks t = .running k)
      (hact : prog.Does t k (.wait word value k')) :
      Step prog s ⟨s.mem, update s.tasks t (.calling word value k')⟩
  | sleep {s : State ι M W V κ} {t : ι} {k : κ} {word : W} {value : V} (ht : s.tasks t = .calling word value k)
      (hword : prog.read s.mem word = value) :
      Step prog s ⟨s.mem, update s.tasks t (.asleep word value k)⟩
  | back {s : State ι M W V κ} {t : ι} {k : κ} {word : W} {value : V} (ht : s.tasks t = .calling word value k) :
      Step prog s ⟨s.mem, update s.tasks t (.running k)⟩
  | leave {s s' : State ι M W V κ} (hmem : s'.mem = s.mem) (hleft : ∀ t, (s.tasks t).Left (s'.tasks t)) : Step prog s s'
  | start {s : State ι M W V κ} {t : ι} {k k' : κ} {words : Set W} (ht : s.tasks t = .running k)
      (hact : prog.Does t k (.wake words k')) :
      Step prog s ⟨s.mem, update s.tasks t (.waking words k')⟩
  | wake {s s' : State ι M W V κ} {t : ι} {k : κ} {words : Set W} (ht : s.tasks t = .waking words k)
      (hmem : s'.mem = s.mem) (ht' : s'.tasks t = .running k) (hleft : ∀ u ≠ t, (s.tasks u).Left (s'.tasks u))
      (hwoken : ∀ u word value k', s'.tasks u = .asleep word value k' → word ∉ words) : Step prog s s'

theorem Step.asleep {prog : Program ι M W V κ} {s s' : State ι M W V κ} (h : Step prog s s') {t : ι} {word : W} {value : V}
    {k : κ} (ht : s'.tasks t = .asleep word value k) :
    s.tasks t = .asleep word value k ∨ s.tasks t = .calling word value k ∧ prog.read s.mem word = value := by
  have hset : ∀ {u : ι} {p : Phase W V κ}, update s.tasks u p t = .asleep word value k →
      s.tasks t = .asleep word value k ∨ t = u ∧ p = .asleep word value k := by
    intro u p hupdate
    by_cases htu : t = u
    · subst htu
      rw [Function.update_self] at hupdate
      exact .inr ⟨rfl, hupdate⟩
    · rw [Function.update_of_ne htu] at hupdate
      exact .inl hupdate
  cases h with
  | access | call | back | start =>
    rcases hset ht with hold | ⟨-, hp⟩
    · exact .inl hold
    · cases hp
  | sleep hcalling hword =>
    rcases hset ht with hold | ⟨rfl, hp⟩
    · exact .inl hold
    · cases hp
      exact .inr ⟨hcalling, hword⟩
  | leave _ hleft => exact .inl ((hleft t).asleep ht)
  | wake _ _ hwaker hleft =>
    refine .inl ((hleft t ?_).asleep ht)
    rintro rfl
    rw [hwaker] at ht
    cases ht

def Reaches (prog : Program ι M W V κ) : State ι M W V κ → State ι M W V κ → Prop := ReflTransGen (Step prog)

end Vx.Lib.Parking
