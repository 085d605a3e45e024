import Vx.Lib.MachineInt

/-!
The clones of one `Arc` (`std/sync/arc.vx`). A step of a handle is one access to the block, with the fence before it.
A reference that `get` gives is used while its handle is live.
-/

namespace Vx.Arc

open List Bool
open Lib.MachineInt (toI64 toI64_eq)

inductive Op
  | clone
  | get
  | tryUnwrap
  | intoInner
  | drop
  deriving DecidableEq

/-- What the owner of an `Arc` does with it, and the answer of the call that ended it. -/
inductive Handle (α : Type)
  | cloned (before : ℤ)
  | live
  | subtracted (op : Op) (before : ℤ)
  | last (op : Op)
  | dropping (value : α)
  | freeing (op : Op) (value : α)
  | done (op : Op) (got : Option α)

structure State (α : Type) where
  count : ℤ
  value : α
  handles : List (Handle α)
  dropped : ℕ
  handedOut : ℕ
  freed : ℕ

variable {α : Type}

def coreArcMaxCount : ℤ := 4611686018427387904

def State.new (v : α) : State α := ⟨1, v, [.live], 0, 0, 0⟩

def State.set (s : State α) (i : ℕ) (h : Handle α) : State α := { s with handles := s.handles.set i h }

/-- The step of the handle `i`; a live one starts the call `op`. A clone past the limit stops the program. -/
def State.step (s : State α) (i : ℕ) (op : Op) : Handle α → Option (State α)
  | .live =>
    match op with
    | .clone => some { s with count := toI64 (s.count + 1), handles := s.handles ++ [.cloned s.count] }
    | .get => some s
    | .tryUnwrap => some (if s.count = 1 then { s with count := 0, handles := s.handles.set i (.last op) } else s)
    | .intoInner | .drop => some { s with count := toI64 (s.count - 1), handles := s.handles.set i (.subtracted op s.count) }
  | .cloned before => if before > coreArcMaxCount then none else some (s.set i .live)
  | .subtracted op before => some (s.set i (if before ≠ 1 then .done op none else .last op))
  | .last op =>
    match op with
    | .drop => some (s.set i (.dropping s.value))
    -- `core_arc_take` moves the value out before it frees the block
    | op => some { s with handedOut := s.handedOut + 1, handles := s.handles.set i (.freeing op s.value) }
  | .dropping value => some { s with dropped := s.dropped + 1, handles := s.handles.set i (.freeing .drop value) }
  | .freeing op value =>
    some { s with
      freed := s.freed + 1
      handles := s.handles.set i (.done op (if op = .drop then none else some value)) }
  | .done _ _ => none

def State.Next (s s' : State α) : Prop := ∃ i op h, s.handles[i]? = some h ∧ s.step i op h = some s'

/-- The states of the runs in which the count stays below its limit. -/
inductive Reaches (v : α) : State α → Prop
  | new : Reaches v (.new v)
  | next {s s' : State α} (hrun : Reaches v s) (hstep : s.Next s') (hlimit : s'.count ≤ coreArcMaxCount) : Reaches v s'

/-- From the addition that makes it to the subtraction that ends it. -/
def Handle.isLive : Handle α → Bool
  | .cloned _ | .live => true
  | _ => false

@[simp]
def Handle.isLast : Handle α → Bool
  | .subtracted _ before => before = 1
  | .last _ | .dropping _ => true
  | _ => false

@[simp]
def Handle.isFreeing : Handle α → Bool
  | .freeing _ _ => true
  | _ => false

def Handle.takes : Handle α → Bool
  | .freeing op _ => op ≠ .drop
  | .done _ got => got.isSome
  | _ => false

def Handle.drops : Handle α → Bool
  | .subtracted op _ | .last op | .freeing op _ | .done op _ => op = .drop
  | .dropping _ => true
  | _ => false

/-- The next step of the handle reads or writes the block. -/
def Handle.touches : Handle α → Bool
  | .cloned _ | .subtracted _ _ | .done _ _ => false
  | _ => true

def Handle.Holds (v : α) : Handle α → Prop
  | .cloned before => before ≤ coreArcMaxCount
  | .dropping value | .freeing _ value => value = v
  | .done op got => (op = .drop → got = none) ∧ ∀ value, got = some value → value = v
  | _ => True

section

structure Inv (v : α) (s : State α) : Prop where
  value : s.value = v
  count : s.count = s.handles.countP Handle.isLive
  last : s.handles.countP Handle.isLast + s.handles.countP Handle.isFreeing + s.freed = if s.count = 0 then 1 else 0
  taken : s.dropped + s.handedOut = s.handles.countP Handle.isFreeing + s.freed
  handedOut : s.handedOut = s.handles.countP Handle.takes
  dropped : s.dropped ≤ s.handles.countP Handle.drops
  holds : ∀ h ∈ s.handles, h.Holds v

variable {v : α} {s s' : State α} {i : ℕ} {h h' : Handle α}

theorem countP_set (p : Handle α → Bool) (hi : s.handles[i]? = some h) (h' : Handle α) :
    (s.handles.set i h').countP p + (p h).toNat = s.handles.countP p + (p h').toNat ∧
      (p h).toNat ≤ s.handles.countP p := by
  obtain ⟨hlt, rfl⟩ := List.getElem?_eq_some_iff.mp hi
  have hpos : p s.handles[i] = true → 0 < s.handles.countP p :=
    fun hp => List.countP_pos_iff.mpr ⟨_, getElem_mem hlt, hp⟩
  rw [List.countP_set hlt]
  cases hp : p s.handles[i] with
  | false => cases p h' <;> simp
  | true =>
    have := hpos hp
    cases p h' <;> simp only [toNat_true, toNat_false, false_eq_true, if_false, if_true] <;> omega

/-- The counts gain and lose what the handle that moves gains and loses. -/
theorem Inv.move (hinv : Inv v s) (hi : s.handles[i]? = some h) (h' : Handle α) {count : ℤ} {dropped handedOut freed : ℕ}
    (hcount : count + h.isLive.toNat = s.count + h'.isLive.toNat)
    (hlast : h'.isLast.toNat + h'.isFreeing.toNat + freed + (if s.count = 0 then 1 else 0) =
      h.isLast.toNat + h.isFreeing.toNat + s.freed + if count = 0 then 1 else 0)
    (htaken : dropped + handedOut + h.isFreeing.toNat + s.freed = s.dropped + s.handedOut + h'.isFreeing.toNat + freed)
    (hhanded : handedOut + h.takes.toNat = s.handedOut + h'.takes.toNat)
    (hdropped : dropped = s.dropped ∧ h.drops.toNat ≤ h'.drops.toNat ∨ dropped ≤ h'.drops.toNat)
    (hholds : h'.Holds v) : Inv v ⟨count, s.value, s.handles.set i h', dropped, handedOut, freed⟩ := by
  have hlives := countP_set Handle.isLive hi h'
  have hlasts := countP_set Handle.isLast hi h'
  have hfreeings := countP_set Handle.isFreeing hi h'
  have htakes := countP_set Handle.takes hi h'
  have hdrops := countP_set Handle.drops hi h'
  obtain ⟨hvalue, hcount₀, hlast₀, htaken₀, hhanded₀, hdropped₀, hholds₀⟩ := hinv
  refine ⟨hvalue, ?_, ?_, ?_, ?_, ?_, fun h hh => ?_⟩ <;> dsimp only at *
  iterate 5 omega
  rcases mem_or_eq_of_mem_set hh with hh | rfl
  · exact hholds₀ h hh
  · exact hholds

theorem Inv.step (hinv : Inv v s) (hlimit : s.count ≤ coreArcMaxCount) (op : Op) (hi : s.handles[i]? = some h)
    (hstep : s.step i op h = some s') : Inv v s' := by
  have hheld := hinv.holds h (mem_of_getElem? hi)
  have hself := fun p => (countP_set p hi h).2
  have hcount := hinv.count
  have hlast := hinv.last
  have htaken := hinv.taken
  unfold coreArcMaxCount at hlimit
  cases h with
  | live =>
    have hlive : 1 ≤ s.handles.countP Handle.isLive := hself Handle.isLive
    cases op with
    | clone =>
      cases hstep
      rw [toI64_eq (by omega) (by omega)]
      have hone : s.count + 1 ≠ 0 := by omega
      have hzero : s.count ≠ 0 := by omega
      refine ⟨hinv.value, ?_, ?_, ?_, ?_, ?_, fun h hh => ?_⟩
      · simp [countP_append, Handle.isLive, hcount]
      · simpa [countP_append, hone, hzero] using hlast
      · simpa [countP_append] using htaken
      · simpa [countP_append, Handle.takes] using hinv.handedOut
      · simpa [countP_append, Handle.drops] using hinv.dropped
      · rcases List.mem_append.mp hh with hh | hh
        · exact hinv.holds h hh
        · cases List.mem_singleton.mp hh
          exact hlimit
    | get =>
      cases hstep
      exact hinv
    | tryUnwrap =>
      cases hstep
      split_ifs with hone
      · refine hinv.move hi (.last .tryUnwrap) ?_ ?_ rfl rfl (.inl ⟨rfl, le_rfl⟩) trivial
        · rw [hone]
          rfl
        · simp [hone, Nat.add_comm]
      · exact hinv
    | intoInner | drop =>
      cases hstep
      rw [toI64_eq (by omega) (by omega)]
      refine hinv.move hi _ (by simp [Handle.isLive]) ?_ rfl rfl (.inl ⟨rfl, Nat.zero_le _⟩) trivial
      rw [if_neg (by omega)]
      by_cases hone : s.count = 1
      · simp [hone, Nat.add_comm]
      · rw [if_neg (by omega)]
        simp [hone]
  | cloned before =>
    simp only [State.step] at hstep
    split at hstep
    · cases hstep
    · cases hstep
      exact hinv.move hi .live rfl rfl rfl rfl (.inl ⟨rfl, le_rfl⟩) trivial
  | subtracted op' before =>
    cases hstep
    split_ifs with hone
    · refine hinv.move hi _ rfl ?_ rfl rfl (.inl ⟨rfl, le_rfl⟩) ⟨fun _ => rfl, nofun⟩
      simp [hone]
    · refine hinv.move hi _ rfl ?_ rfl rfl (.inl ⟨rfl, le_rfl⟩) trivial
      simp [not_not.mp hone]
  | last op' =>
    cases op' with
    | drop =>
      cases hstep
      exact hinv.move hi _ rfl rfl rfl rfl (.inl ⟨rfl, le_rfl⟩) hinv.value
    | _ =>
      cases hstep
      refine hinv.move hi _ rfl rfl ?_ rfl (.inl ⟨rfl, le_rfl⟩) hinv.value
      simp only [Handle.isFreeing, toNat_false, toNat_true]
      omega
  | dropping value =>
    have hpending : 1 ≤ s.handles.countP Handle.isLast := hself Handle.isLast
    have hnone : s.dropped = 0 := by
      split_ifs at hlast <;> omega
    cases hstep
    refine hinv.move hi _ rfl rfl ?_ rfl (.inr (by rw [hnone]; rfl)) hheld
    simp only [Handle.isFreeing, toNat_false, toNat_true]
    omega
  | freeing op' value =>
    cases hstep
    refine hinv.move hi _ rfl ?_ ?_ (by cases op' <;> rfl) (.inl ⟨rfl, le_rfl⟩) ?_
    · simp only [Handle.isLast, Handle.isFreeing, toNat_false, toNat_true]
      omega
    · simp only [Handle.isFreeing, toNat_false, toNat_true]
      omega
    · split_ifs with hop
      · exact ⟨fun _ => rfl, nofun⟩
      · exact ⟨fun h => (hop h).elim, fun _ heq => Option.some.inj heq ▸ hheld⟩
  | done => cases hstep

theorem Reaches.inv (hrun : Reaches v s) : Inv v s ∧ s.count ≤ coreArcMaxCount := by
  induction hrun with
  | new =>
    refine ⟨⟨rfl, rfl, rfl, rfl, rfl, le_rfl, fun h hh => ?_⟩, by simp [State.new, coreArcMaxCount]⟩
    cases List.mem_singleton.mp hh
    trivial
  | next _ hstep hlimit ih =>
    obtain ⟨i, op, h, hi, hstep⟩ := hstep
    exact ⟨ih.1.step ih.2 op hi hstep, hlimit⟩

end

variable {v : α} {s : State α}

structure Shared (v : α) (s : State α) : Prop where
  count : s.count = s.handles.countP Handle.isLive
  once : s.dropped + s.handedOut ≤ 1
  alone : 0 < s.dropped + s.handedOut → ∀ h ∈ s.handles, h.isLive = false
  freed : s.freed ≤ s.dropped + s.handedOut
  untouched : 0 < s.freed → ∀ h ∈ s.handles, h.touches = false
  finished : (∀ h ∈ s.handles, ∃ op got, h = .done op got) → s.dropped + s.handedOut = 1 ∧ s.freed = 1
  inner : (∀ h ∈ s.handles, ∃ got, h = .done .intoInner got) → s.handles.countP Handle.takes = 1
  value : ∀ h ∈ s.handles, h.Holds v
  proceeds : ∀ i h, s.handles[i]? = some h → (∃ op got, h = .done op got) ∨ ∀ op, ∃ s', s.step i op h = some s'

theorem countP_zero {p : Handle α → Bool} (hzero : s.handles.countP p = 0) : ∀ h ∈ s.handles, p h = false :=
  fun h hh => Bool.eq_false_iff.mpr (List.countP_eq_zero.mp hzero h hh)

theorem countP_done {p : Handle α → Bool} (hp : ∀ op got, p (.done op got) = false)
    (hdone : ∀ h ∈ s.handles, ∃ op got, h = .done op got) : s.handles.countP p = 0 := by
  refine List.countP_eq_zero.mpr fun h hh => ?_
  obtain ⟨op, got, rfl⟩ := hdone h hh
  simp [hp]

theorem arc_shared (hrun : Reaches v s) : Shared v s := by
  have hinv := hrun.inv.1
  have hcount := hinv.count
  have hlast := hinv.last
  have htaken := hinv.taken
  have hfinished : (∀ h ∈ s.handles, ∃ op got, h = .done op got) → s.dropped + s.handedOut = 1 ∧ s.freed = 1 := by
    intro hdone
    have hlive := countP_done (p := Handle.isLive) (fun _ _ => rfl) hdone
    have hpending := countP_done (p := Handle.isLast) (fun _ _ => rfl) hdone
    have hfreeing := countP_done (p := Handle.isFreeing) (fun _ _ => rfl) hdone
    rw [if_pos (by omega)] at hlast
    omega
  refine ⟨hcount, ?_, fun hpos => ?_, by omega, fun hpos h hh => ?_, hfinished, fun hdone => ?_, hinv.holds, fun i h hi => ?_⟩
  · split_ifs at hlast <;> omega
  · refine countP_zero ?_
    split_ifs at hlast <;> omega
  · have hzero : s.count = 0 := by
      by_contra hne
      rw [if_neg hne] at hlast
      omega
    rw [if_pos hzero] at hlast
    have hlive := countP_zero (p := Handle.isLive) (by omega) h hh
    have hpending := countP_zero (p := Handle.isLast) (by omega) h hh
    have hfreeing := countP_zero (p := Handle.isFreeing) (by omega) h hh
    cases h <;> simp_all [Handle.isLive, Handle.touches]
  · have hone := hfinished fun h hh => ⟨.intoInner, hdone h hh⟩
    have hdrops : s.handles.countP Handle.drops = 0 := by
      refine List.countP_eq_zero.mpr fun h hh => ?_
      obtain ⟨got, rfl⟩ := hdone h hh
      simp [Handle.drops]
    have hdropped := hinv.dropped
    rw [← hinv.handedOut]
    omega
  · have hheld := hinv.holds h (mem_of_getElem? hi)
    cases h with
    | done op got => exact .inl ⟨op, got, rfl⟩
    | cloned before => exact .inr fun op => ⟨_, if_neg (not_lt.mpr hheld)⟩
    | live => exact .inr fun op => by cases op <;> exact ⟨_, rfl⟩
    | last op => exact .inr fun _ => by cases op <;> exact ⟨_, rfl⟩
    | _ => exact .inr fun _ => ⟨_, rfl⟩

/-- Two handles: one is dropped while the other one is in `into_inner`, which gets the value. -/
theorem arc_shared_two :
    Shared 7 (⟨0, 7, [.done .drop none, .done .intoInner (some 7)], 0, 1, 1⟩ : State ℕ) := by
  have hcloned : Reaches 7 (⟨2, 7, [.live, .cloned 1], 0, 0, 0⟩ : State ℕ) :=
    .next .new ⟨0, .clone, .live, rfl, rfl⟩ (by decide)
  have hlive : Reaches 7 (⟨2, 7, [.live, .live], 0, 0, 0⟩ : State ℕ) :=
    .next hcloned ⟨1, .get, _, rfl, rfl⟩ (by decide)
  have hdrop : Reaches 7 (⟨1, 7, [.subtracted .drop 2, .live], 0, 0, 0⟩ : State ℕ) :=
    .next hlive ⟨0, .drop, .live, rfl, rfl⟩ (by decide)
  have hboth : Reaches 7 (⟨0, 7, [.subtracted .drop 2, .subtracted .intoInner 1], 0, 0, 0⟩ : State ℕ) :=
    .next hdrop ⟨1, .intoInner, .live, rfl, rfl⟩ (by decide)
  have hlast : Reaches 7 (⟨0, 7, [.subtracted .drop 2, .last .intoInner], 0, 0, 0⟩ : State ℕ) :=
    .next hboth ⟨1, .get, _, rfl, rfl⟩ (by decide)
  have hdone : Reaches 7 (⟨0, 7, [.done .drop none, .last .intoInner], 0, 0, 0⟩ : State ℕ) :=
    .next hlast ⟨0, .get, _, rfl, rfl⟩ (by decide)
  have hfree : Reaches 7 (⟨0, 7, [.done .drop none, .freeing .intoInner 7], 0, 1, 0⟩ : State ℕ) :=
    .next hdone ⟨1, .get, _, rfl, rfl⟩ (by decide)
  exact arc_shared (.next hfree ⟨1, .get, _, rfl, rfl⟩ (by decide))

end Vx.Arc
