import Vx.Wait.Invariant

namespace Vx.Wait

open List Option Finset
open Function (update update_of_ne update_self)

variable {ι M W B S κ χ : Type} [DecidableEq ι] [DecidableEq W] [DecidableEq B] [DecidableEq S] [Fintype ι] [Fintype B]
  {sys : System ι M W B S κ χ} {s s' : State ι M W B S κ} {t f : ι}

section
variable {a' : Status ι W B S κ} (htasks : s'.tasks = update s.tasks t a')
include htasks

omit [DecidableEq W] [DecidableEq B] [DecidableEq S] [Fintype ι] [Fintype B] in
theorem stage_self : (s'.tasks t).stage = a'.stage := by
  rw [htasks, update_self]

omit [DecidableEq W] [DecidableEq B] [DecidableEq S] [Fintype ι] [Fintype B] in
theorem stage_rest {u : ι} (hu : u ≠ t) : (s'.tasks u).stage = (s.tasks u).stage := by
  rw [htasks, update_of_ne hu]

variable {b : B} {w : Waiters ι W S}

omit [DecidableEq W] [DecidableEq S] in
theorem placed_update (hbuckets : s'.buckets = update s.buckets b w) (u : ι) :
    s'.placed u + ((s.buckets b).fibers.map Prod.fst).count u + (s.tasks t).pending.count u =
      s.placed u + (w.fibers.map Prod.fst).count u + a'.pending.count u := by
  have hlists := sum_update (fun _ w => (w.fibers.map Prod.fst).count u) s.buckets b w
  have hpending := sum_update (fun _ st => st.pending.count u) s.tasks t a'
  simp only [State.placed, htasks, hbuckets]
  omega

omit [DecidableEq W] [DecidableEq B] [DecidableEq S] in
theorem placed_set (hlists : ∀ b, (s'.buckets b).fibers = (s.buckets b).fibers) (u : ι) :
    s'.placed u + (s.tasks t).pending.count u = s.placed u + a'.pending.count u := by
  have hpending := sum_update (fun _ st => st.pending.count u) s.tasks t a'
  simp only [State.placed, htasks, hlists]
  omega

omit [DecidableEq W] [DecidableEq B] [DecidableEq S] [Fintype B] in
theorem pushed_set (u : ι) : s'.pushed u + (s.tasks t).pushing.count u = s.pushed u + a'.pushing.count u := by
  simp only [State.pushed, htasks]
  exact sum_update (fun _ st => st.pushing.count u) s.tasks t a'

omit htasks

omit [DecidableEq W] [DecidableEq B] [DecidableEq S] [Fintype B] in
theorem pushing_le_pushed (s : State ι M W B S κ) (t u : ι) : (s.tasks t).pushing.count u ≤ s.pushed u :=
  Finset.single_le_sum (f := fun d => (s.tasks d).pushing.count u) (fun _ _ => Nat.zero_le _) (mem_univ t)

omit [DecidableEq W] [DecidableEq B] [DecidableEq S] in
theorem mem_fibers_placed {w : W} (h : (f, w) ∈ (s.buckets b).fibers) : 0 < s.placed f := by
  have hmem : f ∈ (s.buckets b).fibers.map Prod.fst := List.mem_map_of_mem h
  have hle := Finset.single_le_sum (f := fun b => ((s.buckets b).fibers.map Prod.fst).count f) (fun _ _ => Nat.zero_le _)
    (mem_univ b)
  exact (List.count_pos_iff.mpr hmem).trans_le (hle.trans (Nat.le_add_right _ _))

omit [DecidableEq ι] [DecidableEq W] [DecidableEq S] [Fintype ι] [Fintype B] in
theorem lists_update (hw : w.fibers = (s.buckets b).fibers) (b' : B) :
    (update s.buckets b w b').fibers = (s.buckets b').fibers :=
  attr_update (fun _ (w : Waiters ι W S) => w.fibers) hw b'

section
variable (st : Status ι W B S κ) (b : B)

omit [DecidableEq ι] [DecidableEq W] [DecidableEq S] [Fintype ι] [Fintype B] in
theorem notify_stage : (st.notify sys b).stage = st.stage := notify_attr _ (fun _ _ _ => rfl) st b

omit [DecidableEq ι] [DecidableEq W] [DecidableEq S] [Fintype ι] [Fintype B] in
theorem notify_pending : (st.notify sys b).pending = st.pending := notify_attr _ (fun _ _ _ => rfl) st b

omit [DecidableEq ι] [DecidableEq W] [DecidableEq S] [Fintype ι] [Fintype B] in
theorem notify_pushing : (st.notify sys b).pushing = st.pushing := notify_attr _ (fun _ _ _ => rfl) st b

end

omit [DecidableEq ι] [DecidableEq W] [DecidableEq B] [Fintype ι] [Fintype B] in
@[simp] theorem count_fiber (s : State ι M W B S κ) (t : ι) (n : ℤ) : (s.count sys t n).fiber = s.fiber := by
  unfold State.count
  split <;> rfl

omit [DecidableEq ι] [DecidableEq W] [DecidableEq B] [Fintype ι] [Fintype B] in
@[simp] theorem count_ready (s : State ι M W B S κ) (t : ι) (n : ℤ) : (s.count sys t n).ready = s.ready := by
  unfold State.count
  split <;> rfl

end

section

def State.place (s : State ι M W B S κ) (f : ι) : Stage W × FiberState × ℕ × ℕ :=
  ((s.tasks f).stage, s.fiber f, s.placed f, s.pushed f)

omit [DecidableEq W] [DecidableEq B] [DecidableEq S] in
theorem FiberInv.of_place {sched : Option S} {u : ι} (hplace : s'.place u = s.place u)
    (h : FiberInv sched (s.tasks u).stage (s.fiber u) (s.placed u) (s.pushed u)) :
    FiberInv sched (s'.tasks u).stage (s'.fiber u) (s'.placed u) (s'.pushed u) := by
  simp only [State.place, Prod.mk.injEq] at hplace
  obtain ⟨hstage, hfiber, hplaced, hpushed⟩ := hplace
  rw [hstage, hfiber, hplaced, hpushed]
  exact h

omit [DecidableEq W] [DecidableEq B] [DecidableEq S] in
theorem ready_frame (h : FibersInv sys s) (hready : s'.ready = s.ready)
    (hqueued : ∀ u, (s'.tasks u).stage = .queued ↔ (s.tasks u).stage = .queued) (q : S) :
    (s'.ready q).Nodup ∧ ∀ u, u ∈ s'.ready q ↔ sys.sched u = some q ∧ (s'.tasks u).stage = .queued := by
  rw [hready]
  refine ⟨(h.ready q).1, fun u => ?_⟩
  rw [(h.ready q).2 u, hqueued]

variable {a' : Status ι W B S κ}

omit [DecidableEq W] [DecidableEq B] [DecidableEq S] [Fintype ι] [Fintype B] in
theorem queued_set (htasks : s'.tasks = update s.tasks t a') (hold : (s.tasks t).stage ≠ .queued)
    (hnew : a'.stage ≠ .queued) (u : ι) : (s'.tasks u).stage = .queued ↔ (s.tasks u).stage = .queued := by
  by_cases hu : u = t
  · subst hu
    rw [stage_self htasks]
    exact iff_of_false hnew hold
  · rw [stage_rest htasks hu]

omit [DecidableEq W] [DecidableEq B] [DecidableEq S] in
theorem FibersInv.focus (h : FibersInv sys s) (f : ι) (hrest : ∀ u ≠ f, s'.place u = s.place u)
    (hself : FiberInv (sys.sched f) (s'.tasks f).stage (s'.fiber f) (s'.placed f) (s'.pushed f))
    (hlists : ∀ b, (s'.buckets b).fibers = (s.buckets b).fibers)
    (hword : (s'.tasks f).stage.word = (s.tasks f).stage.word ∨ s.placed f = 0)
    (hready : ∀ q, (s'.ready q).Nodup ∧ ∀ u, u ∈ s'.ready q ↔ sys.sched u = some q ∧ (s'.tasks u).stage = .queued) :
    FibersInv sys s' := by
  refine ⟨fun b u w hu => ?_, fun u => ?_, hready⟩
  · rw [hlists] at hu
    by_cases huf : u = f
    · subst huf
      rcases hword with hword | hplaced
      · rw [hword]
        exact h.listed b u w hu
      · exact absurd (mem_fibers_placed hu) (by omega)
    · have hstage : (s'.tasks u).stage = (s.tasks u).stage := congrArg Prod.fst (hrest u huf)
      rw [hstage]
      exact h.listed b u w hu
  · by_cases huf : u = f
    · rw [huf]
      exact hself
    · exact .of_place (hrest u huf) (h.fiber u)

omit [DecidableEq W] [DecidableEq B] [DecidableEq S] in
theorem FibersInv.move (h : FibersInv sys s) (htasks : s'.tasks = update s.tasks t a')
    (hlists : ∀ b, (s'.buckets b).fibers = (s.buckets b).fibers) (hfiber : ∀ u ≠ t, s'.fiber u = s.fiber u)
    (hpending : a'.pending = (s.tasks t).pending) (hpushing : a'.pushing = (s.tasks t).pushing)
    (hself : FiberInv (sys.sched t) a'.stage (s'.fiber t) (s.placed t) (s.pushed t))
    (hword : a'.stage.word = (s.tasks t).stage.word ∨ s.placed t = 0)
    (hready : ∀ q, (s'.ready q).Nodup ∧ ∀ u, u ∈ s'.ready q ↔ sys.sched u = some q ∧ (s'.tasks u).stage = .queued) :
    FibersInv sys s' := by
  have hplaced : ∀ u, s'.placed u = s.placed u := by
    intro u
    have := placed_set htasks hlists u
    rw [hpending] at this
    omega
  have hpushed : ∀ u, s'.pushed u = s.pushed u := by
    intro u
    have := pushed_set htasks u
    rw [hpushing] at this
    omega
  refine h.focus t (fun u hu => ?_) ?_ hlists ?_ hready
  · rw [State.place, State.place, stage_rest htasks hu, hfiber u hu, hplaced, hpushed]
  · rw [stage_self htasks, hplaced, hpushed]
    exact hself
  · rw [stage_self htasks]
    exact hword

omit [DecidableEq W] [DecidableEq B] [DecidableEq S] in
theorem FibersInv.set (h : FibersInv sys s) (htasks : s'.tasks = update s.tasks t a')
    (hlists : ∀ b, (s'.buckets b).fibers = (s.buckets b).fibers) (hfiber : s'.fiber = s.fiber) (hready : s'.ready = s.ready)
    (hpending : a'.pending = (s.tasks t).pending) (hpushing : a'.pushing = (s.tasks t).pushing)
    (hstage : a'.stage = (s.tasks t).stage) : FibersInv sys s' := by
  refine h.move htasks hlists (fun u _ => by rw [hfiber]) hpending hpushing ?_ (.inl (by rw [hstage]))
    (ready_frame h hready fun u => ?_)
  · rw [hstage, hfiber]
    exact h.fiber t
  · rw [htasks, attr_update (fun _ (st : Status ι W B S κ) => st.stage) hstage u]

variable {c : Call W} {k : κ} {q : S} (h : FibersInv sys s)
include h

omit [DecidableEq W] [DecidableEq S] in
theorem FibersInv.park (ht : s.tasks t = .tested c k) (hsched : sys.sched t = some q) {w : Waiters ι W S}
    (hw : w.fibers = (s.buckets (sys.bucket c.word)).fibers ++ [(t, c.word)])
    (htasks : s'.tasks = update s.tasks t (.parking c k)) (hbuckets : s'.buckets = update s.buckets (sys.bucket c.word) w)
    (hfiber : s'.fiber = update s.fiber t .parking) (hready : s'.ready = s.ready) : FibersInv sys s' := by
  have hstage : (s.tasks t).stage = .other := by rw [ht]; rfl
  have hold := h.fiber t
  rw [hstage] at hold
  have hplaced := placed_update htasks hbuckets
  simp only [ht, hw, map_append, count_append, Status.pending, count_nil, List.map_cons, map_nil,
    count_singleton, beq_iff_eq] at hplaced
  have hpushed : ∀ u, s'.pushed u = s.pushed u := by
    intro u
    have := pushed_set htasks u
    rwa [ht] at this
  refine ⟨fun b u w' hu => ?_, fun u => ?_, ready_frame h hready fun u => ?_⟩
  · rw [hbuckets] at hu
    have hmem : (u, w') ∈ (s.buckets b).fibers ∨ u = t ∧ w' = c.word ∧ b = sys.bucket c.word := by
      by_cases hb : b = sys.bucket c.word
      · subst hb
        rw [update_self, hw, mem_append, List.mem_singleton] at hu
        exact hu.imp_right fun heq => by cases heq; exact ⟨rfl, rfl, rfl⟩
      · rw [update_of_ne hb] at hu
        exact .inl hu
    rcases hmem with hmem | ⟨rfl, rfl, rfl⟩
    · have hne : u ≠ t := by
        rintro rfl
        have := (mem_fibers_placed hmem).trans_eq hold.once
        simp [Stage.word] at this
      rw [stage_rest htasks hne]
      exact h.listed b u w' hmem
    · rw [stage_self htasks]
      exact ⟨rfl, rfl⟩
  · by_cases hu : u = t
    · subst hu
      have hself := hplaced u
      rw [hold.once, if_pos rfl] at hself
      rw [stage_self htasks, hpushed, hfiber, update_self, hold.pushed]
      refine ⟨?_, rfl, fun _ _ => .inl rfl, fun _ hparked => (by cases hparked), fun _ => ⟨q, hsched⟩⟩
      simp only [Stage.word, isSome_none, Bool.false_eq_true, false_and, if_false, Status.stage] at hself ⊢
      simp
      omega
    · refine .of_place ?_ (h.fiber u)
      have hrest := hplaced u
      rw [if_neg (Ne.symm hu)] at hrest
      rw [State.place, State.place, stage_rest htasks hu, hfiber, update_of_ne hu, hpushed]
      simp only [Prod.mk.injEq, true_and, and_true]
      omega
  · by_cases hu : u = t
    · subst hu
      rw [stage_self htasks, hstage]
      simp [Status.stage]
    · rw [stage_rest htasks hu]

omit [DecidableEq W] [DecidableEq B] [DecidableEq S] in
theorem FibersInv.parked (ht : s.tasks t = .switched c k) (hstate : s.fiber t = .parking) :
    FibersInv sys { s.set t (.parked c k) with fiber := update s.fiber t .parked } := by
  have hold := h.fiber t
  rw [ht, hstate] at hold
  refine h.move (t := t) rfl (fun _ => rfl) (fun u hu => update_of_ne hu _ _) (by rw [ht]; rfl) (by rw [ht]; rfl)
    ?_ (.inl (by rw [ht]; rfl)) (ready_frame h rfl (queued_set rfl (by simp [ht, Status.stage]) (by simp [Status.stage])))
  rw [hold.once, hold.pushed]
  dsimp only
  rw [update_self]
  exact ⟨rfl, rfl, fun _ hparking => (by cases hparking), fun _ _ => .inl rfl, fun _ => hold.sched (by simp [Status.stage])⟩

omit [DecidableEq W] [DecidableEq B] [DecidableEq S] in
theorem FibersInv.requeue (ht : s.tasks t = .switched c k)
    (hstate : s.fiber t ≠ .parking) : FibersInv sys (s.set t (.requeuing k)) := by
  have hold := h.fiber t
  rw [ht] at hold
  have hwoken : s.fiber t = .woken := (hold.parking c.word rfl).resolve_left hstate
  rw [hwoken] at hold
  have hplaced : s.placed t = 0 := hold.once
  refine h.move (t := t) rfl (fun _ => rfl) (fun _ _ => rfl) (by rw [ht]; rfl) (by rw [ht]; rfl)
    ?_ (.inr hplaced) (ready_frame h rfl (queued_set rfl (by simp [ht, Status.stage]) (by simp [Status.stage])))
  rw [hplaced, hold.pushed]
  exact ⟨rfl, rfl, fun _ heq => (by cases heq), fun _ heq => (by cases heq), fun _ => hold.sched (by simp [Status.stage])⟩

omit [DecidableEq W] [DecidableEq S] in
omit h in
theorem FiberInv.of_free {sched : Option S} {stage : Stage W} {state : FiberState} {placed pushed : ℕ}
    (h : FiberInv sched stage state placed pushed) (hfree : stage.word = none) : placed = 0 ∧ pushed = 0 := by
  have hparked : stage.isParked = false := by cases stage <;> simp_all [Stage.word, Stage.isParked]
  rw [h.once, h.pushed]
  simp [hfree, hparked]

omit [DecidableEq W] [DecidableEq S] in
omit h in
theorem FiberInv.free {sched : Option S} {stage : Stage W} {state : FiberState} (hfree : stage.word = none)
    (hsched : stage ≠ .other → ∃ q, sched = some q) : FiberInv sched stage state 0 0 := by
  cases stage with
  | parking w | parked w => cases hfree
  | _ => exact ⟨rfl, rfl, fun _ heq => (by cases heq), fun _ heq => (by cases heq), hsched⟩

variable (htasks : s'.tasks = update s.tasks t a')
include htasks

omit [DecidableEq W] [DecidableEq B] [DecidableEq S] in
theorem FibersInv.free (hbuckets : s'.buckets = s.buckets) (hfiber : ∀ u ≠ t, s'.fiber u = s.fiber u)
    (hpending : a'.pending = (s.tasks t).pending) (hpushing : a'.pushing = (s.tasks t).pushing)
    (hold : (s.tasks t).stage.word = none) (hnew : a'.stage.word = none)
    (hsched : a'.stage ≠ .other → ∃ q, sys.sched t = some q)
    (hready : ∀ q, (s'.ready q).Nodup ∧ ∀ u, u ∈ s'.ready q ↔ sys.sched u = some q ∧ (s'.tasks u).stage = .queued) :
    FibersInv sys s' := by
  obtain ⟨hplaced, hpushed⟩ := (h.fiber t).of_free hold
  refine h.move htasks (fun b => by rw [hbuckets]) hfiber hpending hpushing ?_ (.inr hplaced) hready
  rw [hplaced, hpushed]
  exact .free hnew hsched

omit [DecidableEq W] [DecidableEq B] in
theorem ready_append (hready : s'.ready = update s.ready q (s.ready q ++ [t])) (hsched : sys.sched t = some q)
    (hold : (s.tasks t).stage ≠ .queued) (hnew : a'.stage = .queued) (q' : S) :
    (s'.ready q').Nodup ∧ ∀ u, u ∈ s'.ready q' ↔ sys.sched u = some q' ∧ (s'.tasks u).stage = .queued := by
  have hout : ∀ q', t ∉ s.ready q' := fun q' hmem => hold (((h.ready q').2 t).mp hmem).2
  have hqueued : ∀ u, (s'.tasks u).stage = .queued ↔ u = t ∨ (s.tasks u).stage = .queued := by
    intro u
    by_cases hu : u = t
    · subst hu
      rw [stage_self htasks]
      exact iff_of_true hnew (.inl rfl)
    · rw [stage_rest htasks hu]
      exact ⟨.inr, fun hor => hor.resolve_left hu⟩
  have hmem : ∀ u, u ∈ s'.ready q' ↔ u = t ∧ q' = q ∨ u ∈ s.ready q' := by
    intro u
    rw [hready]
    by_cases hq : q' = q
    · subst hq
      rw [update_self, mem_append, List.mem_singleton, or_comm]
      simp
    · simp [hq]
  refine ⟨?_, fun u => ?_⟩
  · rw [hready]
    by_cases hq : q' = q
    · subst hq
      rw [update_self]
      exact (h.ready q').1.append (nodup_singleton t) (by simpa using hout q')
    · rw [update_of_ne hq]
      exact (h.ready q').1
  · rw [hmem, hqueued, (h.ready q').2 u]
    constructor
    · rintro (⟨rfl, rfl⟩ | ⟨hu, hstage⟩)
      · exact ⟨hsched, .inl rfl⟩
      · exact ⟨hu, .inr hstage⟩
    · rintro ⟨hu, rfl | hstage⟩
      · exact .inl ⟨rfl, by rw [hsched] at hu; exact (Option.some.inj hu).symm⟩
      · exact .inr ⟨hu, hstage⟩

omit [DecidableEq W] [DecidableEq B] in
theorem ready_eraseIdx {i : ℕ} (hready : s'.ready = update s.ready q ((s.ready q).eraseIdx i))
    (hi : (s.ready q)[i]? = some t) (hnew : a'.stage ≠ .queued) (q' : S) :
    (s'.ready q').Nodup ∧ ∀ u, u ∈ s'.ready q' ↔ sys.sched u = some q' ∧ (s'.tasks u).stage = .queued := by
  obtain ⟨hlt, hget⟩ := List.getElem?_eq_some_iff.mp hi
  have hsched := ((h.ready q).2 t).mp (mem_of_getElem? hi)
  have herase : (s.ready q).eraseIdx i = (s.ready q).erase t := by
    rw [← hget, (h.ready q).1.erase_getElem i hlt]
  have hqueued : ∀ u, (s'.tasks u).stage = .queued ↔ u ≠ t ∧ (s.tasks u).stage = .queued := by
    intro u
    by_cases hu : u = t
    · subst hu
      rw [stage_self htasks]
      exact iff_of_false hnew fun hand => hand.1 rfl
    · rw [stage_rest htasks hu]
      exact (and_iff_right hu).symm
  rw [hready, herase]
  by_cases hq : q' = q
  · subst hq
    rw [update_self]
    refine ⟨(h.ready q').1.erase t, fun u => ?_⟩
    rw [(h.ready q').1.mem_erase_iff, (h.ready q').2 u, hqueued, and_left_comm]
  · rw [update_of_ne hq]
    refine ⟨(h.ready q').1, fun u => ?_⟩
    rw [(h.ready q').2 u, hqueued]
    refine and_congr_right fun hu => (and_iff_right ?_).symm
    rintro rfl
    exact hq (Option.some.inj (hu.symm.trans hsched.1))

omit htasks

omit [DecidableEq S] in
theorem FibersInv.take {b : B} {which : Fibers W} (ht : s.tasks t = .wakeHolding b which k) :
    FibersInv sys (s.stepHolding t b which k) := by
  have htasks : (s.stepHolding t b which k).tasks = update s.tasks t _ := rfl
  have hbuckets : (s.stepHolding t b which k).buckets = update s.buckets b _ := rfl
  have hsplit : ∀ u, (((s.buckets b).fibers.filter fun f => which.takes f.2).map Prod.fst).count u +
      (((s.buckets b).fibers.filter fun f => !which.takes f.2).map Prod.fst).count u =
        ((s.buckets b).fibers.map Prod.fst).count u := by
    intro u
    rw [← count_append, ← map_append]
    exact ((filter_append_perm _ _).map Prod.fst).count_eq u
  have hplaced : ∀ u, (s.stepHolding t b which k).placed u = s.placed u := by
    intro u
    have hupdate := placed_update htasks hbuckets u
    have hu := hsplit u
    rw [ht] at hupdate
    simp only [Status.pending, count_nil] at hupdate
    omega
  have hpushed : ∀ u, (s.stepHolding t b which k).pushed u = s.pushed u := by
    intro u
    have := pushed_set htasks u
    rwa [ht] at this
  have hstage : ∀ u, ((s.stepHolding t b which k).tasks u).stage = (s.tasks u).stage := by
    intro u
    rw [htasks]
    exact attr_update (fun _ (st : Status ι W B S κ) => st.stage) (by rw [ht]; rfl) u
  refine ⟨fun b' u w hu => ?_, fun u => .of_place ?_ (h.fiber u), ready_frame h rfl fun u => by rw [hstage]⟩
  · rw [hstage]
    refine h.listed b' u w ?_
    rw [hbuckets] at hu
    by_cases hb : b' = b
    · subst hb
      rw [update_self] at hu
      exact List.mem_of_mem_filter hu
    · rwa [update_of_ne hb] at hu
  · rw [State.place, State.place, hstage, hplaced, hpushed]
    rfl

variable {fibers : List ι}

omit [DecidableEq W] [DecidableEq B] [DecidableEq S] in
theorem FibersInv.wakeFiber (ht : s.tasks t = .wakeFibers (f :: fibers) k) (htasks : s'.tasks = update s.tasks t a')
    (hlists : s'.buckets = s.buckets) (hready : s'.ready = s.ready) (hfiber : s'.fiber = update s.fiber f .woken)
    (hstage : a'.stage = .other) (hpending : a'.pending = fibers)
    (hpushing : a'.pushing = if (s.tasks f).stage.isParked then [f] else []) : FibersInv sys s' := by
  have hmem : f ∈ (s.tasks t).pending := by rw [ht]; exact List.mem_cons_self
  have hold := h.fiber f
  have hword : (s.tasks f).stage.word.isSome = true ∧ s.fiber f ≠ .woken := by
    rcases h.of_pending hmem with ⟨w, hstage, hstate⟩ | ⟨w, hstage, hstate⟩ <;> simp [hstage, hstate, Stage.word]
  have hne : f ≠ t := by
    rintro rfl
    rw [ht] at hword
    simp [Status.stage, Stage.word] at hword
  have hplaced := placed_set htasks (fun b => by rw [hlists])
  have hpushed := pushed_set htasks
  simp only [hpending, hpushing] at hplaced hpushed
  simp only [ht, Status.pending, Status.pushing, count_nil, List.count_cons, beq_iff_eq] at hplaced hpushed
  refine h.focus f (fun u hu => ?_) ?_ (fun b => by rw [hlists]) (.inl (by rw [stage_rest htasks hne]))
    (ready_frame h hready (queued_set htasks (by simp [ht, Status.stage]) (by simp [hstage])))
  · have hstages : (s'.tasks u).stage = (s.tasks u).stage := by
      rw [htasks]
      exact attr_update (fun _ (st : Status ι W B S κ) => st.stage) (by rw [ht, hstage]; rfl) u
    have hu' := hplaced u
    have hu'' := hpushed u
    rw [if_neg (Ne.symm hu)] at hu'
    rw [State.place, State.place, hstages, hfiber, update_of_ne hu]
    have hzero : List.count u (if (s.tasks f).stage.isParked then [f] else []) = 0 := by
      split
      · exact List.count_eq_zero.mpr (by simpa using hu)
      · rfl
    simp only [Prod.mk.injEq, true_and]
    omega
  · have hf := hplaced f
    have hf' := hpushed f
    rw [if_pos rfl, hold.once, if_pos hword] at hf
    rw [hold.pushed, if_neg (fun hand => hword.2 hand.2)] at hf'
    rw [stage_rest htasks hne, hfiber, update_self]
    refine ⟨?_, ?_, fun _ _ => .inr rfl, fun _ _ => .inr rfl, hold.sched⟩
    · simp only [ne_eq, not_true_eq_false, and_false, if_false]
      omega
    split at hf'
    next hparked =>
      rw [if_pos ⟨hparked, rfl⟩]
      simpa using hf'
    next hparked =>
      rw [if_neg (fun hand => hparked hand.1)]
      simpa using hf'

omit [DecidableEq W] [DecidableEq B] in
theorem FibersInv.push (ht : s.tasks t = .wakePushing f fibers k) :
    FibersInv sys ((s.push sys f).set t (.wakeFibers fibers k)) := by
  have hold := h.fiber f
  have hparked : (s.tasks f).stage.isParked = true ∧ s.fiber f = .woken := by
    have hle := pushing_le_pushed s t f
    rw [hold.pushed, ht] at hle
    by_contra hnot
    rw [if_neg hnot] at hle
    simp [Status.pushing] at hle
  obtain ⟨c, k', hf⟩ : ∃ c k', s.tasks f = .parked c k' := by
    have hstage := hparked.1
    cases hf : s.tasks f <;> rw [hf] at hstage <;> first | exact ⟨_, _, rfl⟩ | cases hstage
  obtain ⟨q, hsched⟩ := hold.sched (by rw [hf]; simp [Status.stage])
  have hne : t ≠ f := by
    rintro rfl
    rw [ht] at hf
    cases hf
  have hpush : s.push sys f = { s.set f (.queued k') with ready := update s.ready q (s.ready q ++ [f]) } := by
    unfold State.push
    rw [hsched, hf]
  have hfirst : (s.push sys f).tasks = update s.tasks f (.queued k') := by rw [hpush]; rfl
  have ht' : (s.push sys f).tasks t = .wakePushing f fibers k := by rw [hfirst, update_of_ne hne, ht]
  have hsecond : ((s.push sys f).set t (.wakeFibers fibers k)).tasks =
    update (s.push sys f).tasks t (.wakeFibers fibers k) := rfl
  have hlists : ∀ b, (((s.push sys f).set t (.wakeFibers fibers k)).buckets b).fibers = ((s.push sys f).buckets b).fibers :=
    fun _ => rfl
  have hplaced : ∀ u, ((s.push sys f).set t (.wakeFibers fibers k)).placed u = s.placed u := by
    intro u
    have h₁ := placed_set hfirst (fun b => by rw [push_buckets]) u
    have h₂ := placed_set hsecond hlists u
    rw [hf] at h₁
    rw [ht'] at h₂
    simp only [Status.pending, count_nil] at h₁ h₂
    omega
  have hpushed : ∀ u, ((s.push sys f).set t (.wakeFibers fibers k)).pushed u + [f].count u = s.pushed u := by
    intro u
    have h₁ := pushed_set hfirst u
    have h₂ := pushed_set hsecond u
    rw [hf] at h₁
    rw [ht'] at h₂
    simp only [Status.pushing, count_nil] at h₁ h₂
    omega
  have hstage : ∀ u, (((s.push sys f).set t (.wakeFibers fibers k)).tasks u).stage = ((s.push sys f).tasks u).stage := by
    intro u
    exact attr_update (fun _ (st : Status ι W B S κ) => st.stage) (by rw [ht']; rfl) u
  have hfiber : ((s.push sys f).set t (.wakeFibers fibers k)).fiber = s.fiber := by rw [State.set, hpush]; rfl
  have hzero : s.placed f = 0 := by
    rw [hold.once, if_neg]
    exact fun hand => hand.2 hparked.2
  refine h.focus f (fun u hu => ?_) ?_ (fun b => by rw [State.set, push_buckets]) (.inr hzero) fun q' => ?_
  · have hrest := hpushed u
    rw [List.count_eq_zero.mpr (by simpa using hu)] at hrest
    rw [State.place, State.place, hstage, stage_rest hfirst hu, hfiber, hplaced]
    simp only [Prod.mk.injEq, true_and]
    omega
  · have hself := hpushed f
    rw [hold.pushed, if_pos hparked, count_singleton_self] at hself
    have hpushed' : ((s.push sys f).set t (.wakeFibers fibers k)).pushed f = 0 := by omega
    rw [hstage, stage_self hfirst, hplaced, hzero, hpushed']
    exact .free rfl fun _ => ⟨q, hsched⟩
  · have hready := ready_append h hfirst (by rw [hpush]) hsched (by rw [hf]; simp [Status.stage]) rfl q'
    refine ⟨hready.1, fun u => ?_⟩
    rw [hstage]
    exact hready.2 u

omit [DecidableEq W] [DecidableEq S] in
theorem FibersInv.notify {b : B} (ht : s.tasks t = .wakeUnlocked b fibers k) :
    FibersInv sys { s with tasks := update (fun u => (s.tasks u).notify sys b) t (.wakeFibers fibers k) } := by
  have hnotify : FibersInv sys { s with tasks := fun u => (s.tasks u).notify sys b } := by
    have hstage : ∀ u, ((s.tasks u).notify sys b).stage = (s.tasks u).stage := fun u => notify_stage _ _
    refine ⟨fun b' u w hu => ?_, fun u => .of_place ?_ (h.fiber u), ready_frame h rfl fun u => by rw [hstage]⟩
    · rw [hstage]
      exact h.listed b' u w hu
    · simp only [State.place, State.placed, State.pushed, notify_stage, notify_pending, notify_pushing]
  refine hnotify.set (t := t) rfl (fun _ => rfl) rfl rfl ?_ ?_ ?_
  · dsimp only
    rw [ht]
    rfl
  · dsimp only
    rw [ht]
    rfl
  · dsimp only
    rw [ht]
    rfl

end

variable {a a' : Status ι W B S κ}

omit [DecidableEq ι] [DecidableEq W] [DecidableEq B] [DecidableEq S] [Fintype ι] [Fintype B] in
theorem Plain.pending (h : Plain sys s t a a') : a'.pending = a.pending := by cases h <;> rfl

omit [DecidableEq ι] [DecidableEq W] [DecidableEq B] [DecidableEq S] [Fintype ι] [Fintype B] in
theorem Plain.pushing (h : Plain sys s t a a') : a'.pushing = a.pushing := by cases h <;> rfl

omit [DecidableEq B] [DecidableEq S] in
theorem FibersInv.plain (h : FibersInv sys s) (ht : s.tasks t = a) (hplain : Plain sys s t a a') :
    FibersInv sys (s.set t a') := by
  by_cases hstage : a'.stage = a.stage
  · exact h.set (t := t) rfl (fun _ => rfl) rfl rfl (by rw [ht, hplain.pending]) (by rw [ht, hplain.pushing])
      (by rw [ht, hstage])
  · cases hplain with
    | requeue hstate => exact h.requeue ht hstate
    | _ => exact absurd rfl hstage

theorem Inv.fibers_step (h : Inv sys s) (hstep : Change sys s s') : FibersInv sys s' := by
  cases hstep with
  | access ht
  | uncount ht
  | unblocked ht => exact h.fibers.set rfl (fun _ => rfl) rfl rfl (by rw [ht]; rfl) (by rw [ht]; rfl) (by rw [ht]; rfl)
  | plain ht hplain => exact h.fibers.plain ht hplain
  | acquire ht hacquires =>
    refine h.fibers.set rfl (lists_update rfl) rfl rfl ?_ ?_ ?_ <;> rw [ht] <;> cases hacquires <;> rfl
  | release ht hreleases =>
    refine h.fibers.set rfl (lists_update rfl) rfl rfl ?_ ?_ ?_ <;> rw [ht] <;> cases hreleases <;> rfl
  | list ht | block ht | unlist ht
  | unblock ht => exact h.fibers.set rfl (lists_update rfl) rfl rfl (by rw [ht]; rfl) (by rw [ht]; rfl) (by rw [ht]; rfl)
  | park ht hsched => exact h.fibers.park ht hsched rfl rfl rfl rfl rfl
  | count ht hcounts =>
    refine h.fibers.set (congrArg (update · _ _) (count_tasks s _ _)) (fun b => by rw [State.set, count_buckets])
      (count_fiber s _ _) (count_ready s _ _) ?_ ?_ ?_ <;> rw [ht] <;> cases hcounts <;> rfl
  | missing ht htimed hseen hmissing => exact (h.threads.not_missing ht htimed hseen hmissing).elim
  | parked ht hstate => exact h.fibers.parked ht hstate
  | queue ht hsched =>
    exact h.fibers.free rfl rfl (fun _ _ => rfl) (by rw [ht]; rfl) (by rw [ht]; rfl) (by rw [ht]; rfl) rfl
      (fun _ => ⟨_, hsched⟩) (ready_append h.fibers rfl rfl hsched (by rw [ht]; simp [Status.stage]) rfl)
  | pop hi ht =>
    exact h.fibers.free rfl rfl (fun _ _ => rfl) (by rw [ht]; rfl) (by rw [ht]; rfl) (by rw [ht]; rfl) rfl
      (fun _ => (h.fibers.fiber _).sched (by rw [ht]; simp [Status.stage]))
      (ready_eraseIdx h.fibers rfl rfl hi (by simp [Status.stage]))
  | resume ht =>
    exact h.fibers.free rfl rfl (fun u hu => update_of_ne hu _ _) (by rw [ht]; rfl) (by rw [ht]; rfl)
      (by rw [ht]; rfl) rfl (fun hother => absurd rfl hother)
      (ready_frame h.fibers rfl (queued_set rfl (by rw [ht]; simp [Status.stage]) (by simp [Status.stage])))
  | take ht => exact h.fibers.take ht
  | notify ht => exact h.fibers.notify ht
  | wakeParked ht hstate =>
    refine h.fibers.wakeFiber ht rfl rfl rfl rfl rfl rfl ?_
    rcases h.fibers.of_pending (by rw [ht]; exact List.mem_cons_self) with ⟨w, hstage, hparking⟩ | ⟨w, hstage, -⟩
    · rw [hstate] at hparking
      cases hparking
    · rw [hstage]
      rfl
  | wakeParking ht hstate =>
    refine h.fibers.wakeFiber ht rfl rfl rfl rfl rfl rfl ?_
    rcases h.fibers.of_pending (by rw [ht]; exact List.mem_cons_self) with ⟨w, hstage, -⟩ | ⟨w, hstage, hparked⟩
    · rw [hstage]
      rfl
    · rw [hstate] at hparked
      cases hparked
  | wakeOther ht hstate => exact (h.fibers.not_other ht hstate).elim
  | push ht => exact h.fibers.push ht

end Vx.Wait
