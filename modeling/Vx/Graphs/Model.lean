import Vx.Lib.MachineInt

/-!
Weighted directed graphs and their shortest paths: `stdlib/graph/core.vx` and `stdlib/graph/shortest_path.vx`. A vector
with an entry for each node is a function of the node.
-/

namespace Vx.Graphs

open Lib.MachineInt

def graphInf : ℤ := 1000000000

structure Graph where
  n : ℕ
  adj : List ℤ
  size : adj.length = n * n
  fits : n * n < 2 ^ 31
  words : ∀ w ∈ adj, -2 ^ 31 ≤ w ∧ w < 2 ^ 31

theorem cell_lt {n : ℕ} (u v : Fin n) : u.val * n + v.val < n * n :=
  calc u.val * n + v.val < u.val * n + n := Nat.add_lt_add_left v.isLt _
    _ = (u.val + 1) * n := (Nat.succ_mul u.val n).symm
    _ ≤ n * n := Nat.mul_le_mul_right n u.isLt

namespace Graph

def new (n : ℕ) (h : n * n < 2 ^ 31) : Graph where
  n := n
  adj := List.replicate (n * n) 0
  size := List.length_replicate
  fits := h
  words w hw := by
    rw [(List.mem_replicate.1 hw).2]
    decide

def addEdge (g : Graph) (u v : Fin g.n) (w : ℤ) (hw : -2 ^ 31 ≤ w ∧ w < 2 ^ 31) : Graph where
  n := g.n
  adj := g.adj.set (u * g.n + v) w
  size := by rw [List.length_set, g.size]
  fits := g.fits
  words x hx := by
    rcases List.mem_or_eq_of_mem_set hx with hold | rfl
    · exact g.words x hold
    · exact hw

def weight (g : Graph) (u v : Fin g.n) : ℤ := g.adj.get ⟨u * g.n + v, by rw [g.size]; exact cell_lt u v⟩

def edge (g : Graph) (u v : Fin g.n) : Option ℤ := if g.weight u v = 0 then none else some (g.weight u v)

end Graph

section
variable {n : ℕ}

def pick (marked : Fin n → Bool) (value : Fin n → ℤ) : Option (Fin n) :=
  ((List.finRange n).foldl (fun (u, best) i =>
    if marked i = false then
      if value i < best then (some i, value i) else (u, best)
    else (u, best)) (none, graphInf)).1

end

variable (g : Graph)

def initial (src : Fin g.n) : Fin g.n → ℤ := Function.update (fun _ => graphInf) src 0

def relax (u : Fin g.n) (dist : Fin g.n → ℤ) (v : Fin g.n) : Fin g.n → ℤ :=
  let w := g.weight u v
  if w ≠ 0 then
    let nd := toI32 (dist u + w)
    if nd < dist v then Function.update dist v nd else dist
  else dist

structure Search where
  dist : Fin g.n → ℤ
  done : Fin g.n → Bool

def dijkstraRound (σ : Search g) (u : Fin g.n) : Search g where
  done := Function.update σ.done u true
  dist := (List.finRange g.n).foldl (relax g u) σ.dist

def dijkstraLoop : ℕ → Search g → Search g
  | 0, σ => σ
  | k + 1, σ =>
    match pick σ.done σ.dist with
    | none => σ
    | some u => dijkstraLoop k (dijkstraRound g σ u)

def dijkstra (src dst : Fin g.n) : ℤ := (dijkstraLoop g g.n ⟨initial g src, fun _ => false⟩).dist dst

def relaxKnown (u : Fin g.n) (dist : Fin g.n → ℤ) (v : Fin g.n) : Fin g.n → ℤ :=
  let w := g.weight u v
  if w ≠ 0 then
    if dist u ≠ graphInf then
      let nd := toI32 (dist u + w)
      if nd < dist v then Function.update dist v nd else dist
    else dist
  else dist

def bellmanFordRound (dist : Fin g.n → ℤ) : Fin g.n → ℤ :=
  (List.finRange g.n).foldl (fun dist u => (List.finRange g.n).foldl (relaxKnown g u) dist) dist

def bellmanFord (src dst : Fin g.n) : ℤ := (bellmanFordRound g)^[g.n - 1] (initial g src) dst

def matrix : Fin g.n × Fin g.n → ℤ := fun (i, j) =>
  if i = j then 0
  else
    let w := g.weight i j
    if w ≠ 0 then w else graphInf

def detour (k i : Fin g.n) (d : Fin g.n × Fin g.n → ℤ) (j : Fin g.n) : Fin g.n × Fin g.n → ℤ :=
  let dik := d (i, k)
  let dkj := d (k, j)
  if dik ≠ graphInf then
    if dkj ≠ graphInf then
      let nd := toI32 (dik + dkj)
      if nd < d (i, j) then Function.update d (i, j) nd else d
    else d
  else d

def floydWarshallRound (d : Fin g.n × Fin g.n → ℤ) (k : Fin g.n) : Fin g.n × Fin g.n → ℤ :=
  (List.finRange g.n).foldl (fun d i => (List.finRange g.n).foldl (detour g k i) d) d

def floydWarshall (src dst : Fin g.n) : ℤ :=
  (List.finRange g.n).foldl (floydWarshallRound g) (matrix g) (src, dst)

end Vx.Graphs
