import Vx.Wait.Refines

namespace Vx.Wait

open Finset
open Function (update update_of_ne update_self)
open Relation (ReflTransGen)

variable {ι M W B S κ χ : Type} [DecidableEq ι] [DecidableEq W] [DecidableEq B] [DecidableEq S] [Fintype ι] [Fintype B]
  {sys : System ι M W B S κ χ} {s s' : State ι M W B S κ} {t : ι}

def Status.sleeping : Status ι W B S κ → Option (Call W)
  | .tested c _ | .listed c _ | .counted c _ | .asleep c _ _ | .parking c _ | .switched c _ | .parked c _ => some c
  | _ => none

inductive State.Woken (sys : System ι M W B S κ χ) (s : State ι M W B S κ) (t : ι) : Prop
  | notify {d : ι} {c : Call W} {seen : ℕ} {k : κ} (ht : s.tasks t = .asleep c seen k)
      (hd : (s.tasks d).notifies = some (sys.bucket c.word)) : s.Woken sys t
  | taken {d : ι} (hd : t ∈ (s.tasks d).pending) : s.Woken sys t
  | pushed {d : ι} (hd : t ∈ (s.tasks d).pushing) : s.Woken sys t
  | requeued {w : W} (ht : (s.tasks t).stage = .parking w) (hwoken : s.fiber t = .woken) : s.Woken sys t

omit [DecidableEq W] [DecidableEq B] [DecidableEq S] in
theorem FibersInv.woken (h : FibersInv sys s) {w : W} (hstage : (s.tasks t).stage.word = some w)
    (hlisted : (t, w) ∉ (s.buckets (sys.bucket w)).fibers) : s.Woken sys t := by
  have hfiber := h.fiber t
  by_cases hwoken : s.fiber t = .woken
  · cases hst : (s.tasks t).stage with
    | parking w' => exact .requeued hst hwoken
    | parked w' =>
      have hpushed := hfiber.pushed
      rw [hst, if_pos ⟨rfl, hwoken⟩, State.pushed] at hpushed
      obtain ⟨d, -, hd⟩ := exists_ne_zero_of_sum_ne_zero (f := fun d => (s.tasks d).pushing.count t)
        (s := Finset.univ) (by omega)
      exact .pushed (List.count_pos_iff.mp (Nat.pos_of_ne_zero hd))
    | other | requeuing | queued | popped =>
      rw [hst] at hstage
      cases hstage
  · have honce := hfiber.once
    rw [if_pos ⟨by rw [hstage]; rfl, hwoken⟩, State.placed] at honce
    by_cases hlists : ∑ b, ((s.buckets b).fibers.map Prod.fst).count t = 0
    · obtain ⟨d, -, hd⟩ := exists_ne_zero_of_sum_ne_zero (f := fun d => (s.tasks d).pending.count t)
        (s := Finset.univ) (by omega)
      exact .taken (List.count_pos_iff.mp (Nat.pos_of_ne_zero hd))
    · obtain ⟨b, -, hb⟩ := exists_ne_zero_of_sum_ne_zero hlists
      obtain ⟨⟨f, w'⟩, hmem, rfl⟩ := List.mem_map.mp (List.count_pos_iff.mp (Nat.pos_of_ne_zero hb))
      obtain ⟨hword, rfl⟩ := h.listed b f w' hmem
      rw [hstage] at hword
      cases hword
      exact absurd hmem hlisted

theorem Inv.asleep_or_woken (h : Inv sys s) {c : Call W} (ht : (s.tasks t).sleeping = some c) :
    (s.abs sys).tasks t = .asleep c.word c.value (s.tasks t).cont ∨ s.Woken sys t := by
  have hfiber := h.fibers.woken (t := t) (w := c.word)
  have hnotified := h.threads.notified t (sys.bucket c.word)
  simp only [State.abs]
  cases hst : s.tasks t with
  | tested c' k | listed c' k | counted c' k =>
    rw [hst] at ht
    cases ht
    exact .inl rfl
  | asleep c' seen k =>
    rw [hst] at ht hnotified
    cases ht
    by_cases hseen : seen = (s.buckets (sys.bucket c.word)).wakes
    · exact .inl (if_pos hseen)
    · obtain ⟨d, hd⟩ := hnotified seen rfl hseen
      exact .inr (.notify hst hd)
  | parking c' k | switched c' k | parked c' k =>
    rw [hst] at ht hfiber
    cases ht
    by_cases hlisted : (t, c.word) ∈ (s.buckets (sys.bucket c.word)).fibers
    · exact .inl (if_pos hlisted)
    · exact .inr (hfiber rfl hlisted)
  | _ =>
    rw [hst] at ht
    cases ht

inductive Resumes (sys : System ι M W B S κ χ) (t : ι) : Status ι W B S κ → Status ι W B S κ → Prop
  | same {a a' : Status ι W B S κ} (ha : ∀ k, a ≠ .running k) (h : a'.cont = a.cont) : Resumes sys t a a'
  | unmoved {a : Status ι W B S κ} : Resumes sys t a a
  | runs {a : Status ι W B S κ} {k : κ} : Resumes sys t a (.running k)
  | wait {k k' : κ} {x : χ} {c : Call W} (h : sys.act t k x = some (.wait c k')) : Resumes sys t (.running k) (.locking c k')
  | wake {k k' : κ} {x : χ} {b : B} {which : Fibers W} (h : sys.act t k x = some (.wake b which k')) :
      Resumes sys t (.running k) (.wakeLocking b which k')

omit [DecidableEq W] [DecidableEq B] [DecidableEq S] [Fintype ι] [Fintype B] in
theorem resumes_set {a' : Status ι W B S κ} (h : Resumes sys t (s.tasks t) a') (u : ι) :
    Resumes sys u (s.tasks u) (update s.tasks t a' u) := by
  by_cases hu : u = t
  · subst hu
    rw [update_self]
    exact h
  · rw [update_of_ne hu]
    exact .unmoved

omit [Fintype ι] [Fintype B] in
theorem Change.resumes (h : Change sys s s') (u : ι) : Resumes sys u (s.tasks u) (s'.tasks u) := by
  cases h with
  | access | resume => exact resumes_set .runs u
  | plain ht hplain =>
    refine resumes_set ?_ u
    rw [ht]
    cases hplain with
    | call hact => exact .wait hact
    | start hact => exact .wake hact
    | done => exact .runs
    | _ => exact .same (fun _ heq => by cases heq) rfl
  | acquire ht hacquires =>
    refine resumes_set ?_ u
    rw [ht]
    cases hacquires <;> exact .same (fun _ heq => by cases heq) rfl
  | release ht hreleases =>
    refine resumes_set ?_ u
    rw [ht]
    cases hreleases <;> exact .same (fun _ heq => by cases heq) rfl
  | count ht hcounts =>
    rw [State.set, count_tasks]
    refine resumes_set ?_ u
    rw [ht]
    cases hcounts <;> exact .same (fun _ heq => by cases heq) rfl
  | list ht | block ht | park ht | unlist ht | unblock ht | missing ht | parked ht | queue ht | pop _ ht | take ht | uncount ht
  | unblocked ht | wakeParked ht | wakeParking ht | wakeOther ht =>
    refine resumes_set ?_ u
    rw [ht]
    exact .same (fun _ heq => by cases heq) rfl
  | @notify t b fibers k ht =>
    by_cases hu : u = t
    · subst hu
      dsimp only
      rw [update_self, ht]
      exact .same (fun _ heq => by cases heq) rfl
    · dsimp only
      rw [update_of_ne hu]
      cases s.tasks u with
      | asleep c seen k =>
        rw [Status.notify]
        split
        · exact .same (fun _ heq => by cases heq) rfl
        · exact .unmoved
      | _ => exact .unmoved
  | @push t f fibers k ht =>
    by_cases hu : u = t
    · subst hu
      dsimp only [State.set]
      rw [update_self, ht]
      exact .same (fun _ heq => by cases heq) rfl
    · dsimp only [State.set]
      rw [update_of_ne hu]
      unfold State.push
      split
      next hf =>
        refine resumes_set ?_ u
        rw [hf]
        exact .same (fun _ heq => by cases heq) rfl
      next => exact .unmoved

omit [Fintype ι] [Fintype B] in
theorem running_of_cont {P : κ → Prop} (hwait : ∀ t k x c k', sys.act t k x = some (.wait c k') → ¬ P k')
    (hwake : ∀ t k x b which k', sys.act t k x = some (.wake b which k') → ¬ P k')
    (h : ∀ t, P (s.tasks t).cont → ∃ k, s.tasks t = .running k) (hrun : ReflTransGen (State.Next sys) s s') (t : ι)
    (ht : P (s'.tasks t).cont) : ∃ k, s'.tasks t = .running k := by
  induction hrun with
  | refl => exact h t ht
  | @tail s₁ s₂ _ hstep ih =>
    have hresumes := (next_change hstep).resumes t
    generalize ha : s₁.tasks t = a at hresumes ih
    generalize ha' : s₂.tasks t = a' at hresumes ht
    cases hresumes with
    | same hnot hcont =>
      rw [hcont] at ht
      obtain ⟨k, hk⟩ := ih ht
      exact (hnot k hk).elim
    | unmoved => exact ih ht
    | runs => exact ⟨_, rfl⟩
    | wait hact => exact (hwait _ _ _ _ _ hact ht).elim
    | wake hact => exact (hwake _ _ _ _ _ _ hact ht).elim

end Vx.Wait
