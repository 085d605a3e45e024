import Mathlib

namespace Vx.Lib.Relaxation

open Function

variable {I : Type} [DecidableEq I]

structure Rule (I : Type) where
  target : I
  value : (I → ℤ) → Option ℤ

def Rule.apply (r : Rule I) (d : I → ℤ) : I → ℤ :=
  match r.value d with
  | none => d
  | some c => if c < d r.target then Function.update d r.target c else d

variable (inf : ℤ) (Valid : I → ℤ → Prop)

def Sound (d : I → ℤ) : Prop := ∀ i, d i ≤ inf ∧ (d i = inf ∨ Valid i (d i))

structure Lawful (r : Rule I) : Prop where
  valid : ∀ d c, Sound inf Valid d → r.value d = some c → Valid r.target c
  mono : ∀ d d' c, (∀ i, d' i ≤ d i) → r.value d = some c → ∃ c', r.value d' = some c' ∧ c' ≤ c

structure Relaxes (rules : Set (Rule I)) (d d' : I → ℤ) : Prop where
  sound : Sound inf Valid d'
  lower : ∀ i, d' i ≤ d i
  relaxed : ∀ r ∈ rules, ∀ c, r.value d = some c → d' r.target ≤ c

variable {inf Valid} {d : I → ℤ}

theorem Relaxes.apply {r : Rule I} (hr : Lawful inf Valid r) (hd : Sound inf Valid d) :
    Relaxes inf Valid {r} d (r.apply d) := by
  unfold Rule.apply
  cases hvalue : r.value d with
  | none =>
    refine ⟨hd, fun i => le_rfl, ?_⟩
    rintro r' rfl c hc
    rw [hvalue] at hc
    cases hc
  | some c =>
    dsimp only
    by_cases hlt : c < d r.target
    · rw [if_pos hlt]
      refine ⟨?_, ?_, ?_⟩
      · intro i
        by_cases hi : i = r.target
        · subst hi
          rw [update_self]
          exact ⟨hlt.le.trans (hd _).1, .inr (hr.valid d c hd hvalue)⟩
        · rw [update_of_ne hi]
          exact hd i
      · intro i
        by_cases hi : i = r.target
        · subst hi
          rw [update_self]
          exact hlt.le
        · rw [update_of_ne hi]
      · rintro r' rfl c' hc'
        rw [hvalue, Option.some.injEq] at hc'
        rw [update_self, hc']
    · rw [if_neg hlt]
      refine ⟨hd, fun i => le_rfl, ?_⟩
      rintro r' rfl c' hc'
      rw [hvalue, Option.some.injEq] at hc'
      exact hc' ▸ not_lt.1 hlt

omit [DecidableEq I] in
theorem Relaxes.refl (hd : Sound inf Valid d) : Relaxes inf Valid ∅ d d := ⟨hd, fun _ => le_rfl, fun _ hr => hr.elim⟩

omit [DecidableEq I] in
theorem Relaxes.trans {rules rules' : Set (Rule I)} (hlaw : ∀ r ∈ rules', Lawful inf Valid r) {d' d'' : I → ℤ}
    (h : Relaxes inf Valid rules d d') (h' : Relaxes inf Valid rules' d' d'') :
    Relaxes inf Valid (rules ∪ rules') d d'' where
  sound := h'.sound
  lower i := (h'.lower i).trans (h.lower i)
  relaxed r hr c hc := by
    rcases hr with hr | hr
    · exact (h'.lower _).trans (h.relaxed r hr c hc)
    · obtain ⟨c', hc', hle⟩ := (hlaw r hr).mono d d' c h.lower hc
      exact (h'.relaxed r hr c' hc').trans hle

omit [DecidableEq I] in
theorem Relaxes.mono {rules rules' : Set (Rule I)} {d' : I → ℤ} (h : Relaxes inf Valid rules d d')
    (hsub : rules' ⊆ rules) : Relaxes inf Valid rules' d d' :=
  ⟨h.sound, h.lower, fun r hr => h.relaxed r (hsub hr)⟩

omit [DecidableEq I] in
theorem Relaxes.foldl {A : Type} (step : (I → ℤ) → A → I → ℤ) (rules : A → Set (Rule I))
    (hlaw : ∀ a, ∀ r ∈ rules a, Lawful inf Valid r)
    (hstep : ∀ a d, Sound inf Valid d → Relaxes inf Valid (rules a) d (step d a)) (l : List A)
    (hd : Sound inf Valid d) : Relaxes inf Valid {r | ∃ a ∈ l, r ∈ rules a} d (l.foldl step d) := by
  induction l generalizing d with
  | nil =>
    apply (Relaxes.refl hd).mono
    rintro r ⟨a, ha, -⟩
    cases ha
  | cons a l ih =>
    have hfirst := hstep a d hd
    have hrest := ih hfirst.sound
    have hboth := hfirst.trans (by rintro r ⟨a', -, hr⟩; exact hlaw a' r hr) hrest
    apply hboth.mono
    rintro r ⟨a', ha', hr⟩
    rcases List.mem_cons.1 ha' with rfl | hin
    · exact .inl hr
    · exact .inr ⟨a', hin, hr⟩

end Vx.Lib.Relaxation
