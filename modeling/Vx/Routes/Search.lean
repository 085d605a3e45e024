import Vx.Lib.Dijkstra
import Vx.Interface.Types

namespace Vx.Routes

open Interface (MemorySpace)
open Lib

abbrev Word (w : ℕ) : Type := Fin (2 ^ w)

instance neZero64 : NeZero (2 ^ 64) := ⟨by decide⟩

instance neZero32 : NeZero (2 ^ 32) := ⟨by decide⟩

def saturatingAdd {w : ℕ} (a b : Word w) : Word w :=
  ⟨min (a.val + b.val) (2 ^ w - 1), by have := Nat.two_pow_pos w; omega⟩

inductive RatePer
  | second | cycle
deriving DecidableEq, Repr

structure Bandwidth where
  bytes : Word 64
  per : RatePer
deriving DecidableEq, Repr

def attosPerSec : ℕ := 1000000000000000000

inductive EdgeCost
  | derived
  | rate (bw : Bandwidth)
  | fixed (cost : Word 32)
  | shared
deriving DecidableEq, Repr

def EdgeCost.routingWeight : EdgeCost → Word 32
  | .derived | .rate _ | .shared => 1
  | .fixed c => c

def toWord (w n : ℕ) : Option (Word w) := if h : n < 2 ^ w then some ⟨n, h⟩ else none

def EdgeCost.perByteAttos : EdgeCost → Option (Word 64)
  | .rate bw => if bw.per = .second ∧ 0 < bw.bytes.val then toWord 64 (attosPerSec / bw.bytes.val) else none
  | .shared => some 0
  | _ => none

structure TransferEdge where
  source : MemorySpace
  target : MemorySpace
  cost : EdgeCost

structure DerivedCost where
  value : Word 64
  per : RatePer

structure TransferCostGraph where
  transferEdges : AList fun _ : MemorySpace => List (MemorySpace × Word 32)
  costMatrix : AList fun _ : MemorySpace × MemorySpace => Word 32
  routeCost : AList fun _ : MemorySpace × MemorySpace => Word 64
  derivedEdges : List (MemorySpace × MemorySpace)

inductive Failure
  | missingPredecessor | outOfFuel
deriving DecidableEq, Repr

abbrev Key : Type := Word 64 ×ₗ Word 32

namespace TransferCostGraph

def neighbors (g : TransferCostGraph) (mem : MemorySpace) : List (MemorySpace × Word 32) :=
  (g.transferEdges.lookup mem).getD []

def builtins : List MemorySpace := [.cpuDram, .npuHbm, .gpuHbm, .localSram, .nicRam, .remoteHbm]

def spaces (g : TransferCostGraph) : List MemorySpace :=
  (builtins ++ g.transferEdges.entries.flatMap fun entry => entry.1 :: entry.2.map Prod.fst).dedup

def extendKey (key : Key) (label : Word 64 × Word 32) : Key :=
  toLex (saturatingAdd (ofLex key).1 label.1, saturatingAdd (ofLex key).2 label.2)

def ExactKey (key : Key) (label : Word 64 × Word 32) : Prop :=
  (ofLex key).1.val + label.1.val < 2 ^ 64 ∧ (ofLex key).2.val + label.2.val < 2 ^ 32

variable {w : ℕ}

theorem le_saturatingAdd (a b : Word w) : a ≤ saturatingAdd a b := by
  have := a.isLt
  exact Fin.le_def.mpr (by simp only [saturatingAdd]; omega)

theorem val_saturatingAdd {a b : Word w} (h : a.val + b.val < 2 ^ w) : (saturatingAdd a b).val = a.val + b.val := by
  simp only [saturatingAdd]
  omega

theorem saturatingAdd_mono {a a' : Word w} (b : Word w) (h : a ≤ a') : saturatingAdd a b ≤ saturatingAdd a' b := by
  have := Fin.le_def.mp h
  exact Fin.le_def.mpr (by simp only [saturatingAdd]; omega)

theorem le_extendKey (key : Key) (label : Word 64 × Word 32) : key ≤ extendKey key label := by
  rw [Prod.Lex.le_iff]
  rcases (le_saturatingAdd (ofLex key).1 label.1).lt_or_eq with hlt | heq
  · exact .inl hlt
  · exact .inr ⟨heq, le_saturatingAdd ..⟩

theorem extendKey_mono (key key' : Key) (label : Word 64 × Word 32) (hexact : ExactKey key' label)
    (hle : key ≤ key') : extendKey key label ≤ extendKey key' label := by
  rw [Prod.Lex.le_iff] at hle ⊢
  rcases hle with hlt | ⟨heq, hle⟩
  · -- a smaller cost stays smaller, since the larger sum does not saturate
    refine .inl (Fin.lt_def.mpr ?_)
    have := Fin.lt_def.mp hlt
    have := hexact.1
    simp only [extendKey, ofLex_toLex, saturatingAdd]
    omega
  · refine .inr ⟨?_, saturatingAdd_mono _ hle⟩
    simp only [extendKey, ofLex_toLex, heq]

def network (g : TransferCostGraph) (pricedOnly : Bool) : Dijkstra.Network MemorySpace (Word 64 × Word 32) Key where
  edges mem := (g.neighbors mem).filterMap fun (next, edgeWeight) =>
    let priced := g.routeCost.lookup (mem, next)
    if pricedOnly && priced.isNone then none
    else some (next, if pricedOnly then priced.getD 0 else 0, edgeWeight)
  start := toLex (0, 0)
  extend := extendKey
  exact := ExactKey
  le_extend := le_extendKey
  extend_mono := extendKey_mono

section
variable (order : Dijkstra.PopOrder MemorySpace Key)

def search (g : TransferCostGraph) (source target : MemorySpace) (pricedOnly : Bool) :
    Except Failure (Option (Word 32 × List MemorySpace)) :=
  let n := g.network pricedOnly
  let fuel := ((source :: g.spaces).map fun u => (n.edges u).length).sum + 2
  match Dijkstra.loop n order source target fuel (Dijkstra.init n source) with
  | .found key (some path) => .ok (some ((ofLex key).2, path))
  | .found _ none => .error .missingPredecessor
  | .unreachable => .ok none
  | .outOfFuel => .error .outOfFuel

def transferPath (g : TransferCostGraph) (source target : MemorySpace) :
    Except Failure (Option (Word 32 × List MemorySpace)) :=
  if source = target then .ok (some (0, [source]))
  else do
    match ← search order g source target true with
    | some route => return some route
    | none => search order g source target false

def sweepPair (g : TransferCostGraph) (matrix : AList fun _ : MemorySpace × MemorySpace => Word 32)
    (pair : MemorySpace × MemorySpace) : Except Failure (AList fun _ : MemorySpace × MemorySpace => Word 32) := do
  match ← g.transferPath order pair.1 pair.2 with
  | some (cost, _) => return matrix.insert pair cost
  | none => return matrix

def precomputeCosts (g : TransferCostGraph) : Except Failure TransferCostGraph := do
  let matrix ← (g.spaces ×ˢ g.spaces).foldlM (g.sweepPair order) g.costMatrix
  return { g with costMatrix := matrix }

end

def transferCost (g : TransferCostGraph) (source target : MemorySpace) : Option (Word 32) :=
  g.costMatrix.lookup (source, target)

def canTransfer (g : TransferCostGraph) (source target : MemorySpace) : Bool :=
  (g.costMatrix.lookup (source, target)).isSome

def addTransferEdge (g : TransferCostGraph) (src dst : MemorySpace) (cost : Word 32) : TransferCostGraph :=
  { g with transferEdges := g.transferEdges.insert src (g.neighbors src ++ [(dst, cost)]) }

def priceEdge (g : TransferCostGraph) (e : TransferEdge) : TransferCostGraph :=
  match e.cost.perByteAttos with
  | some attos =>
    let best := ((g.routeCost.lookup (e.source, e.target)).map (min · attos)).getD attos
    { g with routeCost := g.routeCost.insert (e.source, e.target) best }
  | none =>
    if e.cost = .derived then { g with derivedEdges := g.derivedEdges ++ [(e.source, e.target)] } else g

def applyDescriptorEdges (g : TransferCostGraph) (transfers : List TransferEdge) : TransferCostGraph :=
  transfers.foldl (fun g e => (g.addTransferEdge e.source e.target e.cost.routingWeight).priceEdge e) g

def probeBytes : ℕ := 2 ^ 30

def derivedAttos (d : DerivedCost) : Option (Word 64) :=
  if d.per = .second then toWord 64 (d.value.val * 1000000 / probeBytes) else none

def priceDerived (derived : MemorySpace → MemorySpace → Option DerivedCost) (g : TransferCostGraph)
    (edge : MemorySpace × MemorySpace) : TransferCostGraph :=
  match (derived edge.1 edge.2).bind derivedAttos with
  | some attos => { g with routeCost := g.routeCost.insert edge attos }
  | none => g

variable (order : Dijkstra.PopOrder MemorySpace Key)

def resolveDerivedRouteCosts (derived : MemorySpace → MemorySpace → Option DerivedCost) (g : TransferCostGraph) :
    Except Failure TransferCostGraph :=
  (g.derivedEdges.foldl (priceDerived derived) g).precomputeCosts order

def seedFromTopologies (g : TransferCostGraph) (topologies : List (List TransferEdge)) :
    Except Failure TransferCostGraph :=
  (topologies.foldl applyDescriptorEdges g).precomputeCosts order

def standard : TransferCostGraph :=
  [(.cpuDram, .npuHbm, 50), (.npuHbm, .cpuDram, 50), (.cpuDram, .gpuHbm, 50), (.gpuHbm, .cpuDram, 50),
    (.npuHbm, .localSram, 10), (.localSram, .npuHbm, 10), (.cpuDram, .remoteHbm, 300), (.npuHbm, .nicRam, 5),
    (.nicRam, .remoteHbm, 20)].foldl (fun g (e : MemorySpace × MemorySpace × Word 32) =>
      g.addTransferEdge e.1 e.2.1 e.2.2) ⟨∅, ∅, ∅, []⟩

def default : Except Failure TransferCostGraph := standard.precomputeCosts order

end TransferCostGraph

end Vx.Routes
