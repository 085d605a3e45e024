import Vx.Capacity.FoldRun

namespace Vx.Capacity

open Relation (ReflTransGen)
open Tarjan (Reach)
open Fold (own)

variable {summaries : List FnCapacitySummary} {space : String}

def summaryOf (summaries : List FnCapacitySummary) (name : String) : Option FnCapacitySummary :=
  summaries.find? (·.name = name)

def peakOf (summaries : List FnCapacitySummary) (space name : String) : ℕ :=
  ((summaryOf summaries name).map fun s => (bytesIn s.selfPeak space).toNat).getD 0

/-- A chain of calls between summarised functions, with the bytes it holds in a space: what is held across
each call, and the own peak of the last function. -/
inductive CallPath (summaries : List FnCapacitySummary) (space : String) : List String → ℕ → Prop
  | last {name : String} {s : FnCapacitySummary} (hs : summaryOf summaries name = some s) :
      CallPath summaries space [name] (bytesIn s.selfPeak space).toNat
  | call {name : String} {s : FnCapacitySummary} {edge : CallEdge} {rest : List String} {bytes : ℕ}
      (hs : summaryOf summaries name = some s) (hedge : edge ∈ s.calls)
      (hrest : CallPath summaries space (edge.callee :: rest) bytes) :
      CallPath summaries space (name :: edge.callee :: rest) ((bytesIn edge.live space).toNat + bytes)

def CallsTo (summaries : List FnCapacitySummary) (name callee : String) : Prop :=
  ∃ s, summaryOf summaries name = some s ∧ (∃ edge ∈ s.calls, edge.callee = callee) ∧
    (summaryOf summaries callee).isSome

def Reaches (summaries : List FnCapacitySummary) : String → String → Prop := ReflTransGen (CallsTo summaries)

def SameGroup (summaries : List FnCapacitySummary) (a b : String) : Prop :=
  Reaches summaries a b ∧ Reaches summaries b a

/-- The path leaves each recursive group from the function by which it entered it, or the group has bytes of
its own in the space. `entry` is where the path entered the group of its first function. -/
def LeavesAsEntered (summaries : List FnCapacitySummary) (space : String) (entry : String) : List String → Prop
  | a :: b :: rest =>
    (SameGroup summaries a b → LeavesAsEntered summaries space entry (b :: rest)) ∧
      (¬SameGroup summaries a b →
        (a = entry ∨ ∃ m, SameGroup summaries a m ∧ peakOf summaries space m ≠ 0) ∧
          LeavesAsEntered summaries space b (b :: rest))
  | _ => True

structure Exceeds (summaries : List FnCapacitySummary) (space : String) (cap : UInt64) (name : String)
    (rest : List String) (bytes : ℕ) : Prop where
  path : CallPath summaries space (name :: rest) bytes
  exceeds : cap.toNat < bytes
  leaves : LeavesAsEntered summaries space name (name :: rest)
  no_local : ∀ g, Reaches summaries name g → peakOf summaries space g ≤ cap.toNat
  no_wrap : ∀ g path b, Reaches summaries name g → CallPath summaries space (g :: path) b → (g :: path).Nodup →
    b < 2 ^ 64

def HoldingCycle (summaries : List FnCapacitySummary) (space : String) : Prop :=
  ∃ name s, summaryOf summaries name = some s ∧
    ∃ edge ∈ s.calls, Reaches summaries edge.callee name ∧ bytesIn edge.live space ≠ 0

def HeldInPeak (summaries : List FnCapacitySummary) (space : String) : Prop :=
  ∀ name s, summaryOf summaries name = some s → ∀ edge ∈ s.calls,
    bytesIn s.selfPeak space = 0 → bytesIn edge.live space = 0

variable {p : Program} (hI : p.Indexed summaries) {a b : String} {i j : ℕ}
include hI

theorem exists_node {s : FnCapacitySummary} (hs : summaryOf summaries a = some s) :
    ∃ i, p.index.lookup a = some i ∧ p.node i = s := by
  cases hi : p.index.lookup a with
  | none =>
    have hnone := hI.lookup_none a hi
    rw [summaryOf, hnone] at hs
    cases hs
  | some i =>
    refine ⟨i, rfl, ?_⟩
    have hnode := hI.find_node hi
    rw [summaryOf, hnode] at hs
    exact Option.some.inj hs

variable (hi : p.index.lookup a = some i)
include hi

theorem summaryOf_node : summaryOf summaries a = some (p.node i) := hI.find_node hi

theorem peakOf_node : peakOf summaries space a = (own p i space).toNat := by
  simp [peakOf, summaryOf_node hI hi, own]

omit hi in
theorem lookup_name (hi : i < p.nodes.length) : p.index.lookup (p.node i).name = some i := by
  have hget : p.nodes[i]? = some (p.node i) := by simp [Program.node, List.getD, hi]
  exact hI.lookup_node i _ hget

theorem mem_succ_of_callsTo (h : CallsTo summaries a b) : ∃ j, p.index.lookup b = some j ∧ j ∈ p.succ i := by
  obtain ⟨s, hs, ⟨edge, hedge, rfl⟩, hsome⟩ := h
  obtain ⟨s', hs'⟩ := Option.isSome_iff_exists.mp hsome
  obtain ⟨j, hj, _⟩ := exists_node hI hs'
  rw [summaryOf_node hI hi] at hs
  obtain rfl := Option.some.inj hs
  exact ⟨j, hj, List.mem_filterMap.mpr ⟨edge, hedge, hj⟩⟩

theorem callsTo_of_mem_succ (h : j ∈ p.succ i) : ∃ b, p.index.lookup b = some j ∧ CallsTo summaries a b := by
  obtain ⟨edge, hedge, hj⟩ := List.mem_filterMap.mp h
  exact ⟨edge.callee, hj, p.node i, summaryOf_node hI hi, ⟨edge, hedge, rfl⟩, by simp [summaryOf_node hI hj]⟩

theorem reach_of_reaches (h : Reaches summaries a b) : ∃ j, p.index.lookup b = some j ∧ Reach p.succ i j := by
  induction h with
  | refl => exact ⟨i, hi, .refl⟩
  | tail _ hstep ih =>
    obtain ⟨k, hk, hr⟩ := ih
    obtain ⟨j, hj, hmem⟩ := mem_succ_of_callsTo hI hk hstep
    exact ⟨j, hj, hr.tail hmem⟩

theorem reaches_of_reach (hj : p.index.lookup b = some j) (h : Reach p.succ i j) : Reaches summaries a b := by
  have hgen : ∃ b, p.index.lookup b = some j ∧ Reaches summaries a b := by
    clear hj
    induction h with
    | refl => exact ⟨a, hi, .refl⟩
    | tail _ hstep ih =>
      obtain ⟨c, hc, hr⟩ := ih
      obtain ⟨b, hb, hcall⟩ := callsTo_of_mem_succ hI hc hstep
      exact ⟨b, hb, hr.tail hcall⟩
  obtain ⟨b', hb', hr⟩ := hgen
  rwa [← hI.node_name hj, hI.node_name hb']

theorem sameGroup_iff (hj : p.index.lookup b = some j) :
    SameGroup summaries a b ↔ Reach p.succ i j ∧ Reach p.succ j i := by
  constructor
  · rintro ⟨hab, hba⟩
    obtain ⟨j', hj', hr⟩ := reach_of_reaches hI hi hab
    obtain ⟨i', hi', hr'⟩ := reach_of_reaches hI hj hba
    rw [hj] at hj'
    rw [hi] at hi'
    cases hj'
    cases hi'
    exact ⟨hr, hr'⟩
  · rintro ⟨hr, hr'⟩
    exact ⟨reaches_of_reach hI hi hj hr, reaches_of_reach hI hj hi hr'⟩

omit hi

theorem reach_lt (hi : i < p.nodes.length) (h : Reach p.succ i j) : j < p.nodes.length := by
  induction h with
  | refl => exact hi
  | tail _ hstep ih => exact hI.succ_lt _ ih _ hstep

theorem reach_of_called (hj : p.index.lookup b = some j) (h : Reaches summaries a b) :
    ∃ i, p.index.lookup a = some i ∧ Reach p.succ i j := by
  have hi : ∃ i, p.index.lookup a = some i := by
    rcases ReflTransGen.cases_head h with rfl | ⟨c, ⟨s, hs, _⟩, _⟩
    · exact ⟨j, hj⟩
    · exact (exists_node hI hs).imp fun _ h => h.1
  obtain ⟨i, hi⟩ := hi
  obtain ⟨j', hj', hr⟩ := reach_of_reaches hI hi h
  rw [hj] at hj'
  cases hj'
  exact ⟨i, hi, hr⟩

end Vx.Capacity
