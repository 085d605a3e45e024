import Vx.Mutex.Model
import Vx.Wait.Invariant

namespace Vx.Mutex

open List Finset Function
open Function (update)
open Lib.MachineInt

variable {ι R : Type}

def Place.ticket : Place → Option ℤ
  | .load ticket | .announce ticket _ | .sleep ticket _ | .retire ticket => some ticket
  | _ => none

def Place.announced : Place → Bool
  | .sleep .. | .retire _ => true
  | _ => false

structure Ledger (m : Memory ι R) (place : ι → Place) : Prop where
  tickets : m.taken.map Prod.snd = (List.range m.taken.length).map Nat.cast
  next : m.next = m.taken.length
  granted : m.granted <+: m.taken
  guards : m.guards = [] ∧ m.serving = m.granted.length ∨ m.guards = [m.serving] ∧ m.serving + 1 = m.granted.length
  inside : ∀ t ticket, (place t).ticket = some ticket ↔ ∃ i, m.granted.length ≤ i ∧ m.taken[i]? = some (t, ticket)

variable {m m' : Memory ι R} {place : ι → Place} {t : ι} {ticket : ℤ}

theorem Ledger.ticket_eq (h : Ledger m place) {i : ℕ} (hi : m.taken[i]? = some (t, ticket)) : ticket = i := by
  obtain ⟨hlt, -⟩ := List.getElem?_eq_some_iff.mp hi
  have hticket : (m.taken.map Prod.snd)[i]? = some ticket := by rw [List.getElem?_map, hi]; rfl
  rw [h.tickets, List.getElem?_map, List.getElem?_range hlt] at hticket
  exact (Option.some.inj hticket).symm

theorem Ledger.serving_le (h : Ledger m place) : m.serving ≤ m.granted.length := by
  rcases h.guards with ⟨-, hserving⟩ | ⟨-, hserving⟩ <;> omega

theorem Ledger.granted_le (h : Ledger m place) : m.granted.length ≤ m.taken.length := h.granted.length_le

theorem Ledger.ticket_ge (h : Ledger m place) (ht : (place t).ticket = some ticket) :
    (m.granted.length : ℤ) ≤ ticket ∧ m.taken[m.granted.length]? = some (t, ticket) ∨ (m.granted.length : ℤ) < ticket := by
  obtain ⟨i, hle, hi⟩ := (h.inside t ticket).mp ht
  have hticket := h.ticket_eq hi
  rcases hle.eq_or_lt with rfl | hlt
  · exact .inl ⟨by omega, hi⟩
  · exact .inr (by omega)

theorem Ledger.frame (h : Ledger m place) {place' : ι → Place} (hnext : m'.next = m.next) (hserving : m'.serving = m.serving)
    (hguards : m'.guards = m.guards) (htaken : m'.taken = m.taken) (hgranted : m'.granted = m.granted)
    (hplace : ∀ u, (place' u).ticket = (place u).ticket) : Ledger m' place' := by
  obtain ⟨h₁, h₂, h₃, h₄, h₅⟩ := h
  refine ⟨?_, ?_, ?_, ?_, fun u ticket => ?_⟩
  · rwa [htaken]
  · rwa [hnext, htaken]
  · rwa [hgranted, htaken]
  · rwa [hguards, hserving, hgranted]
  · rw [hplace, hgranted, htaken]
    exact h₅ u ticket

variable [DecidableEq ι]

theorem ticket_update {p : Place} (u : ι) :
    (update place t p u).ticket = if u = t then p.ticket else (place u).ticket := by
  by_cases hu : u = t
  · rw [if_pos hu, hu, update_self]
  · rw [if_neg hu, update_of_ne hu]

theorem Ledger.takeTicket (h : Ledger m place) (ht : (place t).ticket = none) (hroom : m.taken.length + 1 < 2 ^ 63) :
    Ledger (takeTicket t m).1 (update place t (takeTicket t m).2) := by
  have hnext : toI64 (m.next + 1) = m.taken.length + 1 := by
    rw [h.next]
    exact toI64_eq (by omega) (by omega)
  refine ⟨?_, ?_, ?_, h.guards, fun u ticket => ?_⟩
  · simp only [Mutex.takeTicket, map_append, length_append, length_singleton, range_succ, h.tickets, h.next,
      List.map_cons, map_nil]
  · simp only [Mutex.takeTicket, hnext, length_append, length_singleton]
    push_cast
    rfl
  · exact h.granted.trans (prefix_append _ _)
  · have hgranted := h.granted_le
    have hlast : ∀ i, (m.taken ++ [(t, m.next)])[i]? = some (u, ticket) ↔
        m.taken[i]? = some (u, ticket) ∨ i = m.taken.length ∧ u = t ∧ ticket = m.next := by
      intro i
      rcases lt_trichotomy i m.taken.length with hi | rfl | hi
      · rw [List.getElem?_append_left hi]
        simp [hi.ne]
      · simp [eq_comm]
      · rw [List.getElem?_eq_none (by rw [length_append, length_singleton]; exact hi), List.getElem?_eq_none hi.le]
        simp [hi.ne']
    have hold := h.inside u ticket
    simp only [Mutex.takeTicket, ticket_update, hlast]
    by_cases hu : u = t
    · subst hu
      rw [ht] at hold
      simp only [if_true, Place.ticket, Option.some.injEq, true_and]
      constructor
      · intro heq
        exact ⟨m.taken.length, hgranted, .inr ⟨rfl, heq.symm⟩⟩
      · rintro ⟨i, hi, htaken | ⟨-, heq⟩⟩
        · exact absurd (hold.mpr ⟨i, hi, htaken⟩) (by simp)
        · exact heq.symm
    · rw [if_neg hu, hold]
      simp [hu]

theorem Ledger.readServing (h : Ledger m place) (ht : (place t).ticket = some ticket) :
    Ledger (readServing t ticket m).1 (update place t (readServing t ticket m).2) := by
  unfold Mutex.readServing
  split
  next =>
    refine h.frame rfl rfl rfl rfl rfl fun u => ?_
    rw [ticket_update]
    by_cases hu : u = t
    · rw [if_pos hu, hu, ht]
      rfl
    · rw [if_neg hu]
  next hserving =>
    rw [not_not] at hserving
    obtain ⟨hguards, hserved⟩ : m.guards = [] ∧ m.serving = m.granted.length := by
      rcases h.guards with hguards | ⟨-, hserved⟩
      · exact hguards
      · rcases h.ticket_ge ht with ⟨hle, -⟩ | hlt <;> omega
    have hfirst : m.taken[m.granted.length]? = some (t, ticket) := by
      rcases h.ticket_ge ht with ⟨-, hfirst⟩ | hlt
      · exact hfirst
      · omega
    refine ⟨h.tickets, h.next, ?_, .inr ⟨?_, ?_⟩, fun u ticket' => ?_⟩
    · obtain ⟨rest, hrest⟩ := h.granted
      rw [← hrest, List.getElem?_append_right le_rfl, Nat.sub_self] at hfirst
      cases rest with
      | nil => cases hfirst
      | cons first rest =>
        cases hfirst
        exact ⟨rest, by rw [← hrest, append_assoc]; rfl⟩
    · dsimp only
      rw [hguards, hserving]
      rfl
    · dsimp only
      rw [length_append, length_singleton]
      push_cast
      omega
    · have hold := h.inside u ticket'
      dsimp only
      rw [ticket_update, length_append, length_singleton]
      by_cases hu : u = t
      · subst hu
        rw [if_pos rfl]
        refine iff_of_false (by simp [Place.ticket]) ?_
        rintro ⟨i, hi, htaken⟩
        have hsame := hold.mpr ⟨i, by omega, htaken⟩
        rw [ht] at hsame
        cases hsame
        have := h.ticket_eq htaken
        have := h.ticket_eq hfirst
        omega
      · rw [if_neg hu, hold]
        refine ⟨?_, fun ⟨i, hi, htaken⟩ => ⟨i, by omega, htaken⟩⟩
        rintro ⟨i, hi, htaken⟩
        refine ⟨i, Nat.lt_of_le_of_ne hi ?_, htaken⟩
        rintro rfl
        rw [hfirst] at htaken
        cases htaken
        exact hu rfl

theorem Ledger.dropGuard (h : Ledger m place) (hmem : ticket ∈ m.guards) (hroom : m.taken.length < 2 ^ 63) :
    ticket = m.serving ∧ (dropGuard ticket m).1.serving = m.serving + 1 ∧
      ((place t).ticket = none → Ledger (dropGuard ticket m).1 (update place t (dropGuard ticket m).2)) := by
  obtain ⟨hguards, hserving⟩ : m.guards = [m.serving] ∧ m.serving + 1 = m.granted.length := by
    rcases h.guards with ⟨hguards, -⟩ | hguards
    · rw [hguards] at hmem
      cases hmem
    · exact hguards
  have hticket : ticket = m.serving := by
    rw [hguards, List.mem_singleton] at hmem
    exact hmem
  have hle := h.granted_le
  have hadd : toI64 (m.serving + 1) = m.serving + 1 := toI64_eq (by omega) (by omega)
  unfold Mutex.dropGuard
  rw [if_pos hmem]
  refine ⟨hticket, hadd, fun ht => ⟨h.tickets, h.next, h.granted, .inl ⟨?_, hadd.trans hserving⟩, fun u ticket' => ?_⟩⟩
  · dsimp only
    rw [hguards, hticket, erase_cons_head]
  rw [ticket_update, ← h.inside u ticket']
  by_cases hu : u = t
  · rw [if_pos hu, hu, ht]
    rfl
  · rw [if_neg hu]

variable [Fintype ι]

def announcedTasks (place : ι → Place) : ℕ := (Finset.univ.filter fun t => (place t).announced = true).card

omit [DecidableEq ι] in
theorem announcedTasks_congr {place' : ι → Place} (h : ∀ u, (place' u).announced = (place u).announced) :
    announcedTasks place' = announcedTasks place := by
  simp only [announcedTasks, h]

theorem announcedTasks_update (place : ι → Place) (t : ι) (p : Place) :
    announcedTasks (update place t p) + (place t).announced.toNat = announcedTasks place + p.announced.toNat := by
  have hsum := Wait.sum_update (fun _ p => if p.announced = true then 1 else 0) place t p
  rw [announcedTasks, announcedTasks, card_filter, card_filter]
  simpa [Bool.toNat, Bool.cond_eq_ite] using hsum

omit [DecidableEq ι] in
theorem announcedTasks_pos (h : (place t).announced = true) : 0 < announcedTasks place :=
  Finset.card_pos.mpr ⟨t, Finset.mem_filter.mpr ⟨mem_univ t, h⟩⟩

theorem Ledger.announcedTasks_le (h : Ledger m place) : announcedTasks place ≤ m.taken.length := by
  have hsub : (Finset.univ.filter fun t => (place t).announced = true) ⊆ (m.taken.map Prod.fst).toFinset := by
    intro t ht
    have hannounced := (Finset.mem_filter.mp ht).2
    obtain ⟨ticket, hticket⟩ : ∃ ticket, (place t).ticket = some ticket := by
      cases hplace : place t <;> rw [hplace] at hannounced <;> first | exact ⟨_, rfl⟩ | cases hannounced
    obtain ⟨i, -, hi⟩ := (h.inside t ticket).mp hticket
    rw [mem_toFinset]
    exact List.mem_map_of_mem (mem_of_getElem? hi)
  calc announcedTasks place
      ≤ (m.taken.map Prod.fst).toFinset.card := card_le_card hsub
    _ ≤ (m.taken.map Prod.fst).length := toFinset_card_le _
    _ = m.taken.length := length_map _

end Vx.Mutex
