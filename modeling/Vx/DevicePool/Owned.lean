import Vx.DevicePool.Model

namespace Vx.DevicePool

open List Multiset
open Lib.Buffers

namespace FreeLists

theorem buffers_push (bytes p : ℕ) (lists : FreeLists) :
    ((push bytes p lists).buffers : Multiset Buffer) = (p, bytes) ::ₘ (lists.buffers : Multiset Buffer) := by
  rw [cons_coe, coe_eq_coe]
  induction lists with
  | nil => exact List.Perm.refl _
  | cons entry lists ih =>
    obtain ⟨key, list⟩ := entry
    rw [push]
    split_ifs with hkey hlt
    · subst hkey
      simp only [buffers, flatMap_cons, map_append, List.map_cons, map_nil, append_assoc]
      exact perm_middle
    · exact List.Perm.refl _
    · simp only [buffers, flatMap_cons] at ih ⊢
      exact (ih.append_left _).trans perm_middle

theorem buffers_pop {bytes p : ℕ} {lists lists' : FreeLists} (h : lists.pop bytes = some (p, lists')) :
    (lists.buffers : Multiset Buffer) = (p, bytes) ::ₘ (lists'.buffers : Multiset Buffer) := by
  rw [cons_coe, coe_eq_coe]
  induction lists generalizing lists' with
  | nil => cases h
  | cons entry lists ih =>
    obtain ⟨key, list⟩ := entry
    rw [pop] at h
    split_ifs at h with hkey
    · subst hkey
      obtain ⟨last, hlast, heq⟩ := Option.map_eq_some_iff.mp h
      cases heq
      have hsplit : list = list.dropLast ++ [p] := (dropLast_append_getLast? p hlast).symm
      rw [buffers, flatMap_cons, hsplit]
      simp only [buffers, flatMap_cons, map_append, List.map_cons, map_nil, append_assoc, dropLast_concat]
      exact perm_middle
    · obtain ⟨⟨last, rest⟩, hrest, heq⟩ := Option.map_eq_some_iff.mp h
      cases heq
      simp only [buffers, flatMap_cons] at ih ⊢
      exact ((ih hrest).append_left _).trans perm_middle

end FreeLists

def Call.buffers : Call → Multiset Buffer
  | .allocating _ _ => 0
  | .counting b => {b}
  | .draining _ => 0
  | .returning taken _ => taken
  | .givingBack b => {b}

def heldByCalls (calls : Multiset Call) : Multiset Buffer := (calls.map Call.buffers).sum

@[simp] theorem heldByCalls_cons (call : Call) (calls : Multiset Call) :
    heldByCalls (call ::ₘ calls) = call.buffers + heldByCalls calls := by
  rw [heldByCalls, Multiset.map_cons, Multiset.sum_cons, heldByCalls]

/-- What an event may be after those before it. A buffer that is handed out is one that the driver gave and has not back,
and no caller has a buffer at its address; a buffer that is freed is such a buffer too, and then gone. -/
def Proper (before : List Event) : Event → Prop
  | .handedOut b => b ∈ allocated before ∧ ∀ n, (b.1, n) ∉ live before
  | .freed b => b ∈ allocated before ∧ (∀ n, (b.1, n) ∉ live before) ∧ ∀ n, (b.1, n) ∉ allocated (.freed b :: before)
  | _ => True

structure Owned (capacity : ℕ) (c : Config) : Prop where
  owners : allocated c.events = live c.events + (c.pool.freeLists.buffers : Multiset Buffer) + heldByCalls c.calls
  spread : Spread sizeLimit (allocated c.events)
  pooled : c.pool.pooledBytes = total c.pool.freeLists.buffers
  room : c.pool.pooledBytes ≤ capacity
  proper : ∀ after e before, c.events = after ++ e :: before → Proper before e

section
variable {capacity : ℕ} {pool : Pool} {calls : Multiset Call} {events : List Event}

theorem proper_cons {e : Event} (he : Proper events e)
    (h : ∀ after e before, events = after ++ e :: before → Proper before e) :
    ∀ after e' before, e :: events = after ++ e' :: before → Proper before e' := by
  intro after e' before heq
  cases after with
  | nil =>
    cases heq
    exact he
  | cons _ after => exact h after e' before (List.cons.inj heq).2

variable {rest : Multiset Buffer} {b : Buffer} (howners : allocated events = live events + rest)
include howners
variable (hspread : Spread sizeLimit (allocated events))
include hspread

theorem not_live_of_owner (hb : b ∈ rest) : ∀ n, (b.1, n) ∉ live events := by
  intro n hn
  have hall : b ∈ allocated events := howners ▸ Multiset.mem_add.mpr (.inr hb)
  have hlive : (b.1, n) ∈ allocated events := howners ▸ Multiset.mem_add.mpr (.inl hn)
  have heq : (b.1, n) = b := hspread.eq_of_start hlive hall rfl
  have hnodup := hspread.nodup
  rw [howners, nodup_add] at hnodup
  exact Multiset.disjoint_left.mp hnodup.2.2 hn (heq ▸ hb)

theorem proper_handedOut (hb : b ∈ rest) : Proper events (.handedOut b) :=
  ⟨howners ▸ Multiset.mem_add.mpr (.inr hb), not_live_of_owner howners hspread hb⟩

theorem proper_freed (hb : b ∈ rest) : Proper events (.freed b) := by
  have hmem : b ∈ allocated events := howners ▸ Multiset.mem_add.mpr (.inr hb)
  refine ⟨hmem, not_live_of_owner howners hspread hb, fun n hn => ?_⟩
  have hother : (b.1, n) ∈ allocated events := Multiset.mem_of_mem_erase hn
  have heq : (b.1, n) = b := hspread.eq_of_start hother hmem rfl
  rw [heq] at hn
  exact (hspread.nodup.mem_erase_iff.mp hn).1 rfl

omit howners

theorem total_lt_sizeLimit {some : Multiset Buffer} (hle : some ≤ allocated events) : total some < sizeLimit :=
  (hspread.mono hle).total_lt (by decide)

omit hspread

theorem wrap_sub {a b : ℕ} (ha : a < sizeLimit) (hb : b ≤ a) : (a + (sizeLimit - b)) % sizeLimit = a - b := by
  rw [show a + (sizeLimit - b) = a - b + sizeLimit by omega, Nat.add_mod_right, Nat.mod_eq_of_lt (by omega)]

variable {pool' : Pool} {calls' : Multiset Call} (h : Owned capacity ⟨pool, calls, events⟩)
include h

theorem Owned.same (hlists : pool'.freeLists = pool.freeLists) (hpooled : pool'.pooledBytes = pool.pooledBytes)
    (hheld : heldByCalls calls' = heldByCalls calls) : Owned capacity ⟨pool', calls', events⟩ := by
  obtain ⟨howners, hspread, hcount, hroom, hproper⟩ := h
  dsimp only at howners hspread hcount hroom hproper
  refine ⟨?_, hspread, ?_, ?_, hproper⟩
  · rw [hlists, hheld]
    exact howners
  · rw [hlists, hpooled]
    exact hcount
  · rw [hpooled]
    exact hroom

theorem Owned.freed
    (hheld : heldByCalls calls = b ::ₘ heldByCalls calls') : Owned capacity ⟨pool, calls', .freed b :: events⟩ := by
  obtain ⟨howners, hspread, hcount, hroom, hproper⟩ := h
  dsimp only at howners hspread hcount hroom hproper
  rw [hheld, Multiset.add_assoc, add_cons] at howners
  refine ⟨?_, hspread.mono (erase_le _ _), hcount, hroom, proper_cons (proper_freed howners hspread ?_) hproper⟩
  · show (allocated events).erase b = live events + _ + _
    rw [howners, add_cons, Multiset.erase_cons_head, Multiset.add_assoc]
  · exact Multiset.mem_cons_self _ _

theorem Owned.handedOut (hmoved : (pool.freeLists.buffers : Multiset Buffer) + heldByCalls calls =
      b ::ₘ ((pool'.freeLists.buffers : Multiset Buffer) + heldByCalls calls'))
    (hcount : pool'.pooledBytes = total pool'.freeLists.buffers) (hroom : pool'.pooledBytes ≤ capacity) :
    Owned capacity ⟨pool', calls', .handedOut b :: events⟩ := by
  obtain ⟨howners, hspread, _, _, hproper⟩ := h
  dsimp only at howners hspread hproper
  rw [Multiset.add_assoc, hmoved] at howners
  refine ⟨?_, hspread, hcount, hroom, proper_cons (proper_handedOut howners hspread ?_) hproper⟩
  · show allocated events = b ::ₘ live events + _ + _
    rw [howners, add_cons, cons_add, cons_add, Multiset.add_assoc]
  · exact Multiset.mem_cons_self _ _

theorem Owned.released (hlive : b ∈ live events)
    (hmoved : (pool'.freeLists.buffers : Multiset Buffer) + heldByCalls calls' =
      b ::ₘ ((pool.freeLists.buffers : Multiset Buffer) + heldByCalls calls))
    (hcount : pool'.pooledBytes = total pool'.freeLists.buffers) (hroom : pool'.pooledBytes ≤ capacity) :
    Owned capacity ⟨pool', calls', .released b :: events⟩ := by
  obtain ⟨howners, hspread, _, _, hproper⟩ := h
  dsimp only at howners hspread hproper
  refine ⟨?_, hspread, hcount, hroom, proper_cons trivial hproper⟩
  show allocated events = (live events).erase b + _ + _
  rw [Multiset.add_assoc, hmoved, add_cons, ← cons_add, cons_erase hlive, howners, Multiset.add_assoc]

theorem Owned.hit {bytes p : ℕ} {lists : FreeLists} (hpop : pool.freeLists.pop bytes = some (p, lists)) :
    Owned capacity ⟨pool.hit bytes lists, calls, .handedOut (p, bytes) :: events⟩ := by
  have hbuffers := FreeLists.buffers_pop hpop
  have hcount : pool.pooledBytes = bytes + total lists.buffers := by
    rw [h.pooled, hbuffers, total_cons]
  have hlt : pool.pooledBytes < sizeLimit := by
    rw [h.pooled]
    refine total_lt_sizeLimit h.spread ?_
    rw [h.owners]
    exact (Multiset.le_add_left _ _).trans (Multiset.le_add_right _ _)
  have hdown : (pool.hit bytes lists).pooledBytes = total lists.buffers := by
    show (pool.pooledBytes + (sizeLimit - bytes)) % sizeLimit = _
    rw [wrap_sub hlt (by omega)]
    omega
  refine h.handedOut ?_ hdown ?_
  · rw [hbuffers, cons_add]
    rfl
  · have hroom : pool.pooledBytes ≤ capacity := h.room
    omega

theorem Owned.kept (hlive : b ∈ live events) (hroom : (pool.pooledBytes + b.2) % sizeLimit ≤ capacity) :
    Owned capacity ⟨pool.uncount.keep b, calls, .released b :: events⟩ := by
  have hbuffers := FreeLists.buffers_push b.2 b.1 pool.freeLists
  have hlt : pool.pooledBytes + b.2 < sizeLimit := by
    rw [h.pooled, Nat.add_comm, ← total_cons]
    refine total_lt_sizeLimit h.spread ?_
    rw [h.owners, ← singleton_add]
    exact (Multiset.add_le_add_right (Multiset.singleton_le.mpr hlive)).trans (Multiset.le_add_right _ _)
  refine h.released hlive ?_ ?_ hroom
  · show ((pool.freeLists.push b.2 b.1).buffers : Multiset Buffer) + _ = _
    rw [hbuffers, cons_add]
  · show (pool.pooledBytes + b.2) % sizeLimit = total (pool.freeLists.push b.2 b.1).buffers
    rw [hbuffers, total_cons, Nat.mod_eq_of_lt hlt, h.pooled, Nat.add_comm]

omit h

theorem Owned.allocated {bytes : ℕ} {again : Bool}
    (h : Owned capacity ⟨pool, .allocating bytes again ::ₘ calls, events⟩) (hfresh : Fresh events b) :
    Owned capacity ⟨pool, .counting b ::ₘ calls, .allocated b :: events⟩ := by
  obtain ⟨howners, hspread, hcount, hroom, hproper⟩ := h
  dsimp only at howners hspread hproper
  rw [heldByCalls_cons, Call.buffers, Multiset.zero_add] at howners
  refine ⟨?_, hspread.cons hfresh.fits hfresh.apart, hcount, hroom, proper_cons trivial hproper⟩
  show b ::ₘ DevicePool.allocated events = live events + _ + _
  rw [heldByCalls_cons, Call.buffers, singleton_add, add_cons, howners]

theorem Owned.taken {inAcquire : Option ℕ} (h : Owned capacity ⟨pool, .draining inAcquire ::ₘ calls, events⟩) :
    Owned capacity ⟨pool.empty, .returning pool.freeLists.buffers inAcquire ::ₘ calls, events⟩ := by
  obtain ⟨howners, hspread, _, _, hproper⟩ := h
  dsimp only at howners hspread hproper
  rw [heldByCalls_cons, Call.buffers, Multiset.zero_add] at howners
  refine ⟨?_, hspread, rfl, Nat.zero_le _, hproper⟩
  show DevicePool.allocated events = live events + 0 + _
  rw [heldByCalls_cons, Call.buffers, Multiset.add_zero, howners, Multiset.add_assoc]

end

theorem step_owned {capacity : ℕ} {c c' : Config} (h : Step capacity c c') (hc : Owned capacity c) :
    Owned capacity c' := by
  cases h with
  | acquireHit hbytes hpop => exact hc.hit hpop
  | acquireMiss hbytes hpop | allocFailsAgain
  | drain => exact hc.same rfl rfl (by rw [heldByCalls_cons, Call.buffers, Multiset.zero_add])
  | alloc hfresh => exact hc.allocated hfresh
  | allocFails => exact hc.same rfl rfl (by simp only [heldByCalls_cons, Call.buffers])
  | count =>
    refine hc.handedOut ?_ hc.pooled hc.room
    rw [heldByCalls_cons, Call.buffers, singleton_add, add_cons]
    rfl
  | releaseKeep hlive hroom => exact hc.kept hlive hroom
  | releaseGiveBack hlive hroom =>
    refine hc.released hlive ?_ hc.pooled hc.room
    rw [heldByCalls_cons, Call.buffers, singleton_add, add_cons]
    rfl
  | giveBack => exact hc.freed (by rw [heldByCalls_cons, Call.buffers, singleton_add])
  | take => exact hc.taken
  | free =>
    refine hc.freed ?_
    rw [heldByCalls_cons, heldByCalls_cons, Call.buffers, Call.buffers, ← cons_coe, cons_add]
  | drained =>
    exact hc.same rfl rfl (by rw [heldByCalls_cons, Call.buffers, coe_nil, Multiset.zero_add])
  | retry => exact hc.same rfl rfl (by simp only [heldByCalls_cons, Call.buffers, coe_nil])

theorem owned_of_reached {capacity : ℕ} {c : Config} (h : Reached capacity c) : Owned capacity c := by
  induction h with
  | refl =>
    refine ⟨rfl, Spread.zero, rfl, Nat.zero_le _, fun after e before heq => ?_⟩
    cases after <;> cases heq
  | tail _ hstep ih => exact step_owned hstep ih

/-- In every history each buffer that is handed out is one that the driver gave for that many bytes and has not back, and
that no caller has; each buffer is returned while the driver has not got it back, and the count of the pooled bytes is
that of the cached buffers, within the capacity. -/
theorem pool_owns_its_buffers {capacity : ℕ} {c : Config} (h : Reached capacity c) :
    (∀ after e before, c.events = after ++ e :: before → Proper before e) ∧
      c.pool.pooledBytes = total c.pool.freeLists.buffers ∧ c.pool.pooledBytes ≤ capacity := by
  obtain ⟨_, _, hpooled, hroom, hproper⟩ := owned_of_reached h
  exact ⟨hproper, hpooled, hroom⟩

/-- A buffer of 16 bytes that is released and handed out again. -/
theorem pool_owns_its_buffers_reuse :
    Proper [.released (100, 16), .handedOut (100, 16), .allocated (100, 16)] (.handedOut (100, 16)) := by
  have hfresh : Fresh [] (100, 16) :=
    ⟨⟨by decide, by decide, by decide⟩, fun a ha => absurd ha (notMem_zero a)⟩
  have hlive : ((100, 16) : Buffer) ∈ live [.handedOut (100, 16), .allocated (100, 16)] := Multiset.mem_cons_self _ _
  have hmiss : Step 64 {} ⟨_, .allocating 16 false ::ₘ 0, []⟩ := .acquireMiss (by decide) rfl
  have hreached : Reached 64 ⟨_, 0, [.handedOut (100, 16), .released (100, 16), .handedOut (100, 16),
      .allocated (100, 16)]⟩ :=
    .tail (.tail (.tail (.tail (.single hmiss) (.alloc hfresh)) .count) (.releaseKeep hlive (by decide)))
      (.acquireHit (by decide) rfl)
  exact (pool_owns_its_buffers hreached).1 [] _ _ rfl

theorem Owned.card_live_lt {capacity : ℕ} {c : Config} (h : Owned capacity c) : (live c.events).card < sizeLimit := by
  have hle : live c.events ≤ DevicePool.allocated c.events := by
    rw [h.owners, Multiset.add_assoc]
    exact Multiset.le_add_right _ _
  exact (h.spread.mono hle).card_le.trans_lt (total_lt_sizeLimit h.spread hle)

/-- The count of `stats` is that of the buffers callers have; each other buffer of the driver is cached or in a call. -/
theorem live_is_exact {capacity : ℕ} {c : Config} (h : Reached capacity c) : c.pool.live = (live c.events).card ∧
    allocated c.events = live c.events + (c.pool.freeLists.buffers : Multiset Buffer) + heldByCalls c.calls := by
  have hlive : c.pool.live = (live c.events).card := by
    induction h with
    | refl => rfl
    | tail hrun hstep ih =>
      have hlt := (owned_of_reached (.tail hrun hstep)).card_live_lt
      cases hstep with
      | acquireHit | count =>
        rw [live, card_cons] at hlt ⊢
        rw [← ih] at hlt ⊢
        exact Nat.mod_eq_of_lt hlt
      | releaseKeep hlive | releaseGiveBack hlive =>
        rw [live, card_erase_of_mem hlive, ← ih]
        rfl
      | _ => exact ih
  exact ⟨hlive, (owned_of_reached h).owners⟩

/-- Two buffers, of which the first is released: the caller has the second, and the pool keeps the first. -/
theorem live_is_exact_two : ∃ c, Reached 64 c ∧ c.pool.live = 1 ∧ c.pool.freeLists.buffers = [(100, 16)] ∧
    live c.events = {(200, 16)} ∧
    allocated c.events = live c.events + (c.pool.freeLists.buffers : Multiset Buffer) + heldByCalls c.calls := by
  have hfresh : Fresh [] (100, 16) := ⟨⟨by decide, by decide, by decide⟩, fun a ha => absurd ha (notMem_zero a)⟩
  have hfresh' : Fresh [.handedOut (100, 16), .allocated (100, 16)] (200, 16) := by
    refine ⟨⟨by decide, by decide, by decide⟩, fun a ha => ?_⟩
    obtain rfl : a = (100, 16) := by simpa [allocated] using ha
    decide
  have hlive : ((100, 16) : Buffer) ∈ live [.handedOut (200, 16), .allocated (200, 16), .handedOut (100, 16),
      .allocated (100, 16)] := by decide
  have hmiss : Step 64 {} ⟨_, .allocating 16 false ::ₘ 0, []⟩ := .acquireMiss (by decide) rfl
  have hfirst : Reached 64 ⟨_, 0, [.handedOut (100, 16), .allocated (100, 16)]⟩ :=
    .tail (.tail (.single hmiss) (.alloc hfresh)) .count
  have hreached : Reached 64 ⟨_, 0, [.released (100, 16), .handedOut (200, 16), .allocated (200, 16),
      .handedOut (100, 16), .allocated (100, 16)]⟩ :=
    .tail (.tail (.tail (.tail hfirst (.acquireMiss (by decide) rfl)) (.alloc hfresh')) .count)
      (.releaseKeep hlive (by decide))
  exact ⟨_, hreached, rfl, rfl, by decide, (live_is_exact hreached).2⟩

end Vx.DevicePool
