import Vx.Wait.Fibers

namespace Vx.Wait

open List
open Function (update update_of_ne update_self)

variable {ι M W B S κ χ : Type} [DecidableEq ι] [DecidableEq W] [DecidableEq B] [DecidableEq S] [Fintype ι] [Fintype B]
  {sys : System ι M W B S κ χ} {s s' : State ι M W B S κ} {t : ι}

section
variable {tasks tasks' : ι → Status ι W B S κ} {b : B} {w w' : Waiters ι W S}

omit [DecidableEq W] [Fintype B] in
theorem ListsInv.congr (h : ListsInv sys tasks b w) (hon : ∀ u, (tasks' u).onList sys b w.wakes = (tasks u).onList sys b w.wakes)
    (hwakes : w'.wakes = w.wakes) (hsleepers : w'.sleepers = w.sleepers) (hblocked : w'.blocked = w.blocked)
    (hnotes : ∀ u, w'.notes.count (.thread u) = w.notes.count (.thread u)) : ListsInv sys tasks' b w' := by
  refine ⟨fun u => ?_, fun q => ?_, fun u => ?_⟩
  · rw [hwakes, hon, hsleepers]
    exact h.sleepers u
  · simp only [hwakes, hon, hblocked]
    exact h.blocked q
  · rw [hwakes, hon, hnotes]
    exact h.notes u

omit [DecidableEq W] [DecidableEq S] [Fintype ι] [Fintype B] in
theorem onList_update {a' : Status ι W B S κ} {n : ℕ} (u : ι) :
    (update tasks t a' u).onList sys b n = if u = t then a'.onList sys b n else (tasks u).onList sys b n := by
  by_cases hu : u = t
  · rw [if_pos hu, hu, update_self]
  · rw [if_neg hu, update_of_ne hu]

omit [DecidableEq W] [Fintype B] in
theorem blocked_update (sys : System ι M W B S κ χ) (tasks : ι → Status ι W B S κ) (t : ι) (a' : Status ι W B S κ) (b : B)
    (q : S) (n : ℕ) : (∑ u, if sys.sched u = some q ∧ (update tasks t a' u).onList sys b n = true then 1 else 0) +
        (if sys.sched t = some q ∧ (tasks t).onList sys b n = true then 1 else 0) =
      (∑ u, if sys.sched u = some q ∧ (tasks u).onList sys b n = true then 1 else 0) +
        (if sys.sched t = some q ∧ a'.onList sys b n = true then 1 else 0 : ℕ) :=
  sum_update (fun u st => if sys.sched u = some q ∧ st.onList sys b n = true then 1 else 0) tasks t a'

variable {a' : Status ι W B S κ}

omit [DecidableEq W] [Fintype B] in
theorem ListsInv.join (h : ListsInv sys tasks b w) (hold : (tasks t).onList sys b w.wakes = false)
    (hnew : a'.onList sys b w.wakes = true) (hwakes : w'.wakes = w.wakes)
    (hsleepers : ∀ u, w'.sleepers.count u = w.sleepers.count u + if u = t ∧ sys.sched t = none then 1 else 0)
    (hblocked : ∀ q, w'.blocked.count q = w.blocked.count q + if sys.sched t = some q then 1 else 0)
    (hnotes : w'.notes = w.notes ++ [.thread t]) : ListsInv sys (update tasks t a') b w' := by
  refine ⟨fun u => ?_, fun q => ?_, fun u => ?_⟩
  · rw [hwakes, hsleepers, h.sleepers, onList_update]
    by_cases hu : u = t
    · subst hu
      simp [hold, hnew]
    · simp [hu]
  · have := blocked_update sys tasks t a' b q w.wakes
    simp only [hold, hnew, Bool.false_eq_true, and_false, if_false, and_true, Nat.add_zero] at this
    rw [hwakes, hblocked, h.blocked, this]
  · rw [hwakes, hnotes, count_append, h.notes, onList_update, count_singleton]
    by_cases hu : u = t
    · subst hu
      simp [hold, hnew]
    · simp [hu, Ne.symm hu]

omit [DecidableEq W] [Fintype B] in
theorem ListsInv.leave (h : ListsInv sys tasks b w) (hold : (tasks t).onList sys b w.wakes = true)
    (hnew : a'.onList sys b w.wakes = false) (hwakes : w'.wakes = w.wakes)
    (hsleepers : ∀ u, w'.sleepers.count u = w.sleepers.count u - if u = t ∧ sys.sched t = none then 1 else 0)
    (hblocked : ∀ q, w'.blocked.count q = w.blocked.count q - if sys.sched t = some q then 1 else 0)
    (hnotes : w'.notes = w.notes.erase (.thread t)) : ListsInv sys (update tasks t a') b w' := by
  refine ⟨fun u => ?_, fun q => ?_, fun u => ?_⟩
  · rw [hwakes, hsleepers, h.sleepers, onList_update]
    by_cases hu : u = t
    · subst hu
      simp [hold, hnew]
    · simp [hu]
  · have := blocked_update sys tasks t a' b q w.wakes
    simp only [hold, hnew, Bool.false_eq_true, and_false, if_false, and_true, Nat.add_zero] at this
    rw [hwakes, hblocked, h.blocked, ← this]
    omega
  · rw [hwakes, hnotes, onList_update]
    by_cases hu : u = t
    · subst hu
      rw [count_erase_self, h.notes]
      simp [hold, hnew]
    · rw [count_erase_of_ne (by simpa using hu), h.notes]
      simp [hu]

omit [DecidableEq W] [Fintype B] in
theorem ListsInv.cleared (hon : ∀ u, (tasks' u).onList sys b w'.wakes = false) (hsleepers : w'.sleepers = [])
    (hblocked : w'.blocked = []) (hnotes : ∀ u, .thread u ∉ w'.notes) : ListsInv sys tasks' b w' := by
  refine ⟨fun u => ?_, fun q => ?_, fun u => ?_⟩
  · simp [hon, hsleepers]
  · simp [hon, hblocked]
  · simpa [hon, count_eq_zero] using hnotes u

structure Quiet (sys : System ι M W B S κ χ) (s s' : State ι M W B S κ) : Prop where
  wakes : ∀ b, (s'.buckets b).wakes = (s.buckets b).wakes
  saw : ∀ u b n, (s'.tasks u).saw sys = some (b, n) → (s.tasks u).saw sys = some (b, n) ∨ n = (s.buckets b).wakes
  sleeps : ∀ u b n, (s'.tasks u).sleeps sys = some (b, n) →
    (s.tasks u).sleeps sys = some (b, n) ∨ n = (s.buckets b).wakes
  notifies : ∀ u b, (s.tasks u).notifies = some b → (s'.tasks u).notifies = some b

omit [DecidableEq W] [Fintype B] in
theorem ThreadsInv.quiet (h : ThreadsInv sys s) (hquiet : Quiet sys s s')
    (hlists : ∀ b, ListsInv sys s'.tasks b (s'.buckets b)) : ThreadsInv sys s' := by
  refine ⟨hlists, fun u b n hu => ?_, fun u b n hu hn => ?_⟩
  · rw [hquiet.wakes]
    rcases hquiet.saw u b n hu with hu | rfl
    · exact h.saw u b n hu
    · exact le_rfl
  · rw [hquiet.wakes] at hn
    obtain ⟨d, hd⟩ := h.notified u b n ((hquiet.sleeps u b n hu).resolve_right hn) hn
    exact ⟨d, hquiet.notifies d b hd⟩

omit [DecidableEq W] [DecidableEq B] [DecidableEq S] [Fintype ι] [Fintype B] in
theorem Quiet.set (htasks : s'.tasks = update s.tasks t a') (hwakes : ∀ b, (s'.buckets b).wakes = (s.buckets b).wakes)
    (hsaw : ∀ b n, a'.saw sys = some (b, n) → (s.tasks t).saw sys = some (b, n) ∨ n = (s.buckets b).wakes)
    (hsleeps : ∀ b n, a'.sleeps sys = some (b, n) → (s.tasks t).sleeps sys = some (b, n) ∨ n = (s.buckets b).wakes)
    (hnotifies : ∀ b, (s.tasks t).notifies = some b → a'.notifies = some b) : Quiet sys s s' := by
  refine ⟨hwakes, fun u b n hu => ?_, fun u b n hu => ?_, fun u b hu => ?_⟩ <;> rw [htasks] at * <;> by_cases hut : u = t
  · subst hut
    rw [update_self] at hu
    exact hsaw b n hu
  · rw [update_of_ne hut] at hu
    exact .inl hu
  · subst hut
    rw [update_self] at hu
    exact hsleeps b n hu
  · rw [update_of_ne hut] at hu
    exact .inl hu
  · subst hut
    rw [update_self]
    exact hnotifies b hu
  · rw [update_of_ne hut]
    exact hu

def Waiters.threads (w : Waiters ι W S) : ℕ × List ι × List S := (w.wakes, w.sleepers, w.blocked)

omit [DecidableEq W] [Fintype B] in
theorem ThreadsInv.set (h : ThreadsInv sys s) (htasks : s'.tasks = update s.tasks t a')
    (hbuckets : ∀ b, (s'.buckets b).threads = (s.buckets b).threads)
    (hnotes : ∀ b u, (s'.buckets b).notes.count (.thread u) = (s.buckets b).notes.count (.thread u))
    (hon : ∀ b, a'.onList sys b (s.buckets b).wakes = (s.tasks t).onList sys b (s.buckets b).wakes)
    (hsaw : ∀ b n, a'.saw sys = some (b, n) → (s.tasks t).saw sys = some (b, n) ∨ n = (s.buckets b).wakes)
    (hsleeps : ∀ b n, a'.sleeps sys = some (b, n) → (s.tasks t).sleeps sys = some (b, n) ∨ n = (s.buckets b).wakes)
    (hnotifies : ∀ b, (s.tasks t).notifies = some b → a'.notifies = some b) : ThreadsInv sys s' := by
  have hwakes : ∀ b, (s'.buckets b).wakes = (s.buckets b).wakes := fun b => congrArg Prod.fst (hbuckets b)
  refine h.quiet (.set htasks hwakes hsaw hsleeps hnotifies) fun b => ?_
  refine (h.lists b).congr (fun u => ?_) (hwakes b) (congrArg (·.2.1) (hbuckets b)) (congrArg (·.2.2) (hbuckets b)) (hnotes b)
  rw [htasks]
  exact attr_update (fun _ (st : Status ι W B S κ) => st.onList sys b (s.buckets b).wakes) (hon b) u

omit [DecidableEq W] [Fintype B] in
theorem ThreadsInv.relist (h : ThreadsInv sys s) {b : B} {w : Waiters ι W S}
    (htasks : s'.tasks = update s.tasks t a') (hbuckets : s'.buckets = update s.buckets b w)
    (hwakes : w.wakes = (s.buckets b).wakes) (hself : ListsInv sys (update s.tasks t a') b w)
    (hrest : ∀ b' ≠ b, ∀ n, a'.onList sys b' n = (s.tasks t).onList sys b' n)
    (hsaw : a'.saw sys = none) (hsleeps : a'.sleeps sys = none) (hnotifies : (s.tasks t).notifies = none) :
    ThreadsInv sys s' := by
  have hquiet : Quiet sys s s' := by
    refine .set htasks (fun b' => ?_) (fun b n ha' => ?_) (fun b n ha' => ?_) fun b ha => ?_
    · rw [hbuckets]
      exact attr_update (fun _ (w : Waiters ι W S) => w.wakes) hwakes b'
    · rw [hsaw] at ha'
      cases ha'
    · rw [hsleeps] at ha'
      cases ha'
    · rw [hnotifies] at ha
      cases ha
  refine h.quiet hquiet fun b' => ?_
  rw [htasks, hbuckets]
  by_cases hb : b' = b
  · subst hb
    rw [update_self]
    exact hself
  · rw [update_of_ne hb]
    refine (h.lists b').congr (fun u => ?_) rfl rfl rfl fun _ => rfl
    exact attr_update (fun _ (st : Status ι W B S κ) => st.onList sys b' (s.buckets b').wakes) (hrest b' hb _) u

variable {c : Call W} {seen : ℕ} {k : κ}

theorem count_append_singleton {α : Type} [DecidableEq α] (l : List α) (x y : α) :
    (l ++ [x]).count y = l.count y + if x = y then 1 else 0 := by
  rw [count_append, count_singleton]
  simp

theorem count_erase_one {α : Type} [DecidableEq α] (l : List α) (x y : α) :
    (l.erase x).count y = l.count y - if x = y then 1 else 0 := by
  rw [count_erase]
  simp

variable {w : Waiters ι W S}

omit [DecidableEq W] [Fintype B] in
theorem ThreadsInv.list (h : ThreadsInv sys s) (ht : s.tasks t = .tested c k) (htimed : c.timed = false)
    (htasks : s'.tasks = update s.tasks t (.listed c k))
    (hbuckets : s'.buckets = update s.buckets (sys.bucket c.word) w)
    (hwakes : w.wakes = (s.buckets (sys.bucket c.word)).wakes) (hsleepers : ∀ u, w.sleepers.count u =
      (s.buckets (sys.bucket c.word)).sleepers.count u + if u = t ∧ sys.sched t = none then 1 else 0)
    (hblocked : ∀ q, w.blocked.count q =
      (s.buckets (sys.bucket c.word)).blocked.count q + if sys.sched t = some q then 1 else 0)
    (hnotes : w.notes = (s.buckets (sys.bucket c.word)).notes ++ [.thread t]) : ThreadsInv sys s' := by
  refine h.relist htasks hbuckets hwakes ?_ (fun b hb n => ?_) rfl rfl (by rw [ht]; rfl)
  · exact (h.lists _).join (by rw [ht]; rfl) (by simp [Status.onList, htimed]) hwakes hsleepers hblocked hnotes
  · rw [ht]
    simp [Status.onList, Ne.symm hb]

omit [DecidableEq W] [Fintype B] in
theorem ThreadsInv.unlist (h : ThreadsInv sys s) (ht : s.tasks t = .relocked c seen k) (htimed : c.timed = false)
    (hseen : (s.buckets (sys.bucket c.word)).wakes = seen) (htasks : s'.tasks = update s.tasks t (.unlisted c k))
    (hbuckets : s'.buckets = update s.buckets (sys.bucket c.word) w)
    (hwakes : w.wakes = (s.buckets (sys.bucket c.word)).wakes) (hsleepers : ∀ u, w.sleepers.count u =
      (s.buckets (sys.bucket c.word)).sleepers.count u - if u = t ∧ sys.sched t = none then 1 else 0)
    (hblocked : ∀ q, w.blocked.count q =
      (s.buckets (sys.bucket c.word)).blocked.count q - if sys.sched t = some q then 1 else 0)
    (hnotes : w.notes = (s.buckets (sys.bucket c.word)).notes.erase (.thread t)) : ThreadsInv sys s' := by
  refine h.relist htasks hbuckets hwakes ?_ (fun b hb n => ?_) rfl rfl (by rw [ht]; rfl)
  · refine (h.lists _).leave ?_ rfl hwakes hsleepers hblocked hnotes
    rw [ht, hseen]
    exact onList_relocked htimed
  · rw [ht]
    simp [Status.onList, Ne.symm hb]

omit [DecidableEq ι] [DecidableEq W] [DecidableEq S] [Fintype ι] [Fintype B] in
theorem sleeps_notify {st : Status ι W B S κ} {b' : B} {n : ℕ} (h : (st.notify sys b).sleeps sys = some (b', n)) :
    st.sleeps sys = some (b', n) ∧ b' ≠ b := by
  cases st with
  | asleep c seen k =>
    rw [Status.notify] at h
    split at h
    next => cases h
    next hb =>
      refine ⟨h, ?_⟩
      rintro rfl
      exact hb (congrArg Prod.fst (Option.some.inj h))
  | _ => cases h

omit [DecidableEq W] in
theorem Inv.onList_next (h : Inv sys s) (ht : (s.tasks t).holds sys = some b) {u : ι} (hu : u ≠ t) :
    (s.tasks u).onList sys b ((s.buckets b).wakes + 1) = false := by
  have hfree : (s.tasks u).holds sys ≠ some b := by
    intro hholds
    have := ((h.lock u b).mp hholds).symm.trans ((h.lock t b).mp ht)
    exact hu (Option.some.inj this)
  have hsaw : ∀ n, (s.tasks u).saw sys = some (b, n) → n ≤ (s.buckets b).wakes := h.threads.saw u b
  cases hstatus : s.tasks u with
  | listed c k | counted c k =>
    rw [hstatus] at hfree
    have hb : sys.bucket c.word ≠ b := fun heq => hfree (congrArg some heq)
    simp [Status.onList, hb]
  | asleep c seen k | roused c seen k | relocked c seen k =>
    by_cases hb : sys.bucket c.word = b
    · have hle := hsaw seen (by rw [hstatus, ← hb]; rfl)
      have hne : seen ≠ (s.buckets b).wakes + 1 := by omega
      simp [Status.onList, hne]
    · simp [Status.onList, hb]
  | _ => rfl

theorem Inv.threads_take (h : Inv sys s) {which : Fibers W} {k : κ} (ht : s.tasks t = .wakeHolding b which k) :
    ThreadsInv sys (s.stepHolding t b which k) := by
  have hholds : (s.tasks t).holds sys = some b := by rw [ht]; rfl
  have htasks : (s.stepHolding t b which k).tasks = update s.tasks t _ := rfl
  have hbuckets : (s.stepHolding t b which k).buckets = update s.buckets b _ := rfl
  refine ⟨fun b' => ?_, fun u b' n hu => ?_, fun u b' n hu hn => ?_⟩
  · rw [hbuckets]
    by_cases hb : b' = b
    · subst hb
      rw [update_self]
      refine .cleared (fun u => ?_) rfl rfl fun u hmem => ?_
      · rw [htasks]
        by_cases hu : u = t
        · rw [hu, update_self]
          rfl
        · rw [update_of_ne hu]
          exact h.onList_next hholds hu
      · obtain ⟨f, -, hf⟩ := List.any_eq_true.mp (List.mem_filter.mp hmem).2
        simp at hf
    · rw [update_of_ne hb]
      refine (h.threads.lists b').congr (fun u => ?_) rfl rfl rfl fun _ => rfl
      rw [htasks]
      exact attr_update (fun _ (st : Status ι W B S κ) => st.onList sys b' (s.buckets b').wakes) (by rw [ht]; rfl) u
  · have hold : n ≤ (s.buckets b').wakes := by
      refine h.threads.saw u b' n ?_
      rw [← hu, htasks]
      exact (attr_update (fun _ (st : Status ι W B S κ) => st.saw sys) (by rw [ht]; rfl) u).symm
    rw [hbuckets]
    by_cases hb : b' = b
    · subst hb
      rw [update_self]
      exact hold.trans (Nat.le_succ _)
    · rw [update_of_ne hb]
      exact hold
  · by_cases hb : b' = b
    · refine ⟨t, ?_⟩
      rw [hb, htasks, update_self]
      rfl
    · have hold : (s.tasks u).sleeps sys = some (b', n) := by
        rw [← hu, htasks]
        exact (attr_update (fun _ (st : Status ι W B S κ) => st.sleeps sys) (by rw [ht]; rfl) u).symm
      rw [hbuckets, update_of_ne hb] at hn
      obtain ⟨d, hd⟩ := h.threads.notified u b' n hold hn
      have hne : d ≠ t := by
        rintro rfl
        rw [ht] at hd
        cases hd
      exact ⟨d, by rw [htasks, update_of_ne hne, hd]⟩

omit [DecidableEq W] [Fintype B] in
theorem ThreadsInv.notify (h : ThreadsInv sys s) {fibers : List ι} {k : κ} (ht : s.tasks t = .wakeUnlocked b fibers k) :
    ThreadsInv sys { s with tasks := update (fun u => (s.tasks u).notify sys b) t (.wakeFibers fibers k) } := by
  have hattr : ∀ {Y : Type} (g : Status ι W B S κ → Y) (_ : ∀ c seen k, g (.roused c seen k) = g (.asleep c seen k))
      (_ : g (.wakeFibers fibers k) = g (s.tasks t)) (u : ι),
      g (update (fun u => (s.tasks u).notify sys b) t (.wakeFibers fibers k) u) = g (s.tasks u) := by
    intro Y g hg ht' u
    rw [attr_update (fun _ => g) (by rw [ht', notify_attr g hg]) u, notify_attr g hg]
  refine ⟨fun b' => ?_, fun u b' n hu => ?_, fun u b' n hu hn => ?_⟩
  · exact (h.lists b').congr (hattr (fun st => st.onList sys b' _) (fun _ _ _ => rfl) (by rw [ht]; rfl)) rfl rfl rfl
      fun _ => rfl
  · refine h.saw u b' n ?_
    rw [← hu]
    exact (hattr (fun st => st.saw sys) (fun _ _ _ => rfl) (by rw [ht]; rfl) u).symm
  · dsimp only at hu
    have hne : u ≠ t := by
      rintro rfl
      rw [update_self] at hu
      cases hu
    rw [update_of_ne hne] at hu
    obtain ⟨hold, hb⟩ := sleeps_notify hu
    obtain ⟨d, hd⟩ := h.notified u b' n hold hn
    refine ⟨d, ?_⟩
    have hdt : d ≠ t := by
      rintro rfl
      rw [ht] at hd
      exact hb (Option.some.inj hd).symm
    dsimp only
    rw [update_of_ne hdt, notify_attr (fun st => st.notifies) fun _ _ _ => rfl]
    exact hd

end

variable {a a' : Status ι W B S κ} (h : Plain sys s t a a')
include h
variable {b : B}

omit [DecidableEq ι] [DecidableEq W] [DecidableEq B] [DecidableEq S] [Fintype ι] [Fintype B] in
theorem Plain.saw {n : ℕ} (ha' : a'.saw sys = some (b, n)) : a.saw sys = some (b, n) := by
  cases h <;> first | exact ha' | cases ha'

omit [DecidableEq ι] [DecidableEq W] [DecidableEq B] [DecidableEq S] [Fintype ι] [Fintype B] in
theorem Plain.sleeps : a'.sleeps sys = none := by
  cases h <;> rfl

omit [DecidableEq ι] [DecidableEq W] [DecidableEq B] [DecidableEq S] [Fintype ι] [Fintype B] in
theorem Plain.notifies : a.notifies = none := by
  cases h <;> rfl

omit [DecidableEq ι] [DecidableEq W] [DecidableEq S] [Fintype ι] [Fintype B] in
theorem Plain.onList (b : B) : a'.onList sys b (s.buckets b).wakes = a.onList sys b (s.buckets b).wakes := by
  cases h with
  | @wasWoken c seen k h =>
    by_cases hb : sys.bucket c.word = b
    · subst hb
      rcases h with htimed | hseen
      · simp [Status.onList, htimed]
      · simp [Status.onList, Ne.symm hseen]
    · simp [Status.onList, hb]
  | _ => rfl

omit h

omit [DecidableEq W] [Fintype B] in
theorem ThreadsInv.plain (h : ThreadsInv sys s) (ht : s.tasks t = a) (hplain : Plain sys s t a a') :
    ThreadsInv sys (s.set t a') := by
  refine h.set (t := t) rfl (fun _ => rfl) (fun _ _ => rfl) (fun b => ?_) (fun b n ha' => .inl ?_) (fun b n ha' => ?_)
    fun b ha => ?_
  · rw [ht]
    exact hplain.onList b
  · rw [ht]
    exact hplain.saw ha'
  · rw [hplain.sleeps] at ha'
    cases ha'
  · rw [ht, hplain.notifies] at ha
    cases ha

variable {w : Waiters ι W S}

omit [DecidableEq ι] [DecidableEq W] [DecidableEq S] [Fintype ι] [Fintype B] in
theorem threads_update (hw : w.threads = (s.buckets b).threads) (b' : B) :
    (update s.buckets b w b').threads = (s.buckets b').threads :=
  attr_update (fun _ (w : Waiters ι W S) => w.threads) hw b'

omit [DecidableEq W] [DecidableEq S] [Fintype ι] [Fintype B] in
theorem notes_update (hw : ∀ u, w.notes.count (.thread u) = (s.buckets b).notes.count (.thread u)) (b' : B) (u : ι) :
    (update s.buckets b w b').notes.count (.thread u) = (s.buckets b').notes.count (.thread u) :=
  attr_update (fun _ (w : Waiters ι W S) => w.notes.count (.thread u)) (hw u) b'

omit [DecidableEq W] [Fintype B] in
theorem ThreadsInv.release (h : ThreadsInv sys s) (ht : s.tasks t = a)
    (hreleases : Releases sys s b a a') : ThreadsInv sys ((s.release b).set t a') := by
  refine h.set (t := t) rfl (threads_update rfl) (notes_update fun _ => rfl) (fun b' => ?_) (fun b' n ha' => ?_)
    (fun b' n ha' => ?_) fun b' ha => ?_
  · rw [ht]
    cases hreleases with
    | doze htimed => simp [Status.onList, htimed]
    | @sleep c k =>
      by_cases hb : sys.bucket c.word = b'
      · subst hb
        simp [Status.onList]
      · simp [Status.onList, hb]
    | _ => rfl
  · cases hreleases with
    | doze | sleep =>
      cases ha'
      exact .inr rfl
    | _ => cases ha'
  · cases hreleases with
    | doze | sleep =>
      cases ha'
      exact .inr rfl
    | _ => cases ha'
  · rw [ht] at ha
    cases hreleases with
    | unlock => exact ha
    | _ => cases ha

omit [DecidableEq W] [Fintype B] in
theorem ThreadsInv.still (h : ThreadsInv sys s) {a' : Status ι W B S κ} (htasks : s'.tasks = update s.tasks t a')
    (hbuckets : ∀ b, (s'.buckets b).threads = (s.buckets b).threads)
    (hnotes : ∀ b u, (s'.buckets b).notes.count (.thread u) = (s.buckets b).notes.count (.thread u))
    (hon : ∀ b n, a'.onList sys b n = (s.tasks t).onList sys b n) (hsaw : a'.saw sys = (s.tasks t).saw sys)
    (hsleeps : a'.sleeps sys = (s.tasks t).sleeps sys) (hnotifies : a'.notifies = (s.tasks t).notifies) :
    ThreadsInv sys s' :=
  h.set htasks hbuckets hnotes (fun b => hon b _) (fun _ _ ha' => .inl (hsaw ▸ ha')) (fun _ _ ha' => .inl (hsleeps ▸ ha'))
    fun _ ha => hnotifies ▸ ha

omit [DecidableEq W] [Fintype B] in
theorem ThreadsInv.push (h : ThreadsInv sys s) (f : ι) : ThreadsInv sys (s.push sys f) := by
  unfold State.push
  split
  next hf =>
    exact h.still rfl (fun _ => rfl) (fun _ _ => rfl) (fun _ _ => by rw [hf]; rfl) (by rw [hf]; rfl) (by rw [hf]; rfl)
      (by rw [hf]; rfl)
  next => exact h

omit [DecidableEq W] [DecidableEq B] [Fintype ι] [Fintype B] in
theorem push_other (sys : System ι M W B S κ χ) (s : State ι M W B S κ) {f : ι} {fibers : List ι} {k : κ} (ht : s.tasks t = .wakePushing f fibers k) :
    (s.push sys f).tasks t = .wakePushing f fibers k := by
  unfold State.push
  split
  next hf =>
    have hne : t ≠ f := by
      rintro rfl
      rw [ht] at hf
      cases hf
    exact (update_of_ne hne _ _).trans ht
  next => exact ht

theorem Inv.threads_step (h : Inv sys s) (hstep : Change sys s s') : ThreadsInv sys s' := by
  cases hstep with
  | access ht | parked ht | queue ht | pop _ ht | resume ht | uncount ht | unblocked ht | wakeParked ht | wakeParking ht =>
    exact h.threads.still rfl (fun _ => rfl) (fun _ _ => rfl) (fun _ _ => by rw [ht]; rfl) (by rw [ht]; rfl)
      (by rw [ht]; rfl) (by rw [ht]; rfl)
  | plain ht hplain => exact h.threads.plain ht hplain
  | acquire ht hacquires =>
    refine h.threads.still rfl (threads_update rfl) (notes_update fun _ => rfl) (fun b n => ?_) ?_ ?_ ?_ <;> rw [ht] <;>
      cases hacquires <;> rfl
  | release ht hreleases => exact h.threads.release ht hreleases
  | list ht htimed hsched =>
    refine h.threads.list ht htimed rfl rfl rfl (fun u => ?_) (fun q => ?_) rfl
    · rw [count_append_singleton]
      simp [hsched, eq_comm]
    · simp [hsched]
  | block ht htimed hsched =>
    refine h.threads.list ht htimed rfl rfl rfl (fun u => ?_) (fun q => ?_) rfl
    · simp [hsched]
    · rw [count_append_singleton]
      simp [hsched]
  | park ht =>
    refine h.threads.still rfl (threads_update rfl) (notes_update fun u => ?_) (fun _ _ => by rw [ht]; rfl) (by rw [ht]; rfl)
      (by rw [ht]; rfl) (by rw [ht]; rfl)
    simp
  | count ht hcounts =>
    refine h.threads.still (congrArg (update · _ _) (count_tasks s _ _)) (fun b => by rw [State.set, count_buckets])
      (fun b u => by rw [State.set, count_buckets]) (fun b n => ?_) ?_ ?_ ?_ <;> rw [ht] <;> cases hcounts <;> rfl
  | unlist ht htimed hseen hsched =>
    refine h.threads.unlist ht htimed hseen rfl rfl rfl (fun u => ?_) (fun q => ?_) rfl
    · rw [count_erase_one]
      simp [hsched, eq_comm]
    · simp [hsched]
  | unblock ht htimed hseen hsched =>
    refine h.threads.unlist ht htimed hseen rfl rfl rfl (fun u => ?_) (fun q => ?_) rfl
    · simp [hsched]
    · rw [count_erase_one]
      simp [hsched]
  | missing ht htimed hseen hmissing => exact (h.threads.not_missing ht htimed hseen hmissing).elim
  | take ht => exact h.threads_take ht
  | notify ht => exact h.threads.notify ht
  | wakeOther ht hstate => exact (h.fibers.not_other ht hstate).elim
  | push ht =>
    have ht' := push_other sys s ht
    exact (h.threads.push _).still rfl (fun _ => rfl) (fun _ _ => rfl) (fun _ _ => by rw [ht']; rfl) (by rw [ht']; rfl)
      (by rw [ht']; rfl) (by rw [ht']; rfl)

end Vx.Wait
