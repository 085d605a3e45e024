import Mathlib

namespace Vx.Capacity

open Function (update)

structure Tarjan where
  ids : ℕ → Option ℕ
  low : ℕ → ℕ
  onStack : ℕ → Bool
  stack : List ℕ
  nextId : ℕ
  sccs : List (List ℕ)
  work : List (ℕ × ℕ)

namespace Tarjan

def start : Tarjan where
  ids := fun _ => none
  low := fun _ => 0
  onStack := fun _ => false
  stack := []
  nextId := 0
  sccs := []
  work := []

def enter (t : Tarjan) (v : ℕ) : Tarjan :=
  { t with
    ids := update t.ids v (some t.nextId)
    low := update t.low v t.nextId
    nextId := t.nextId + 1
    stack := v :: t.stack
    onStack := update t.onStack v true }

def lower (t : Tarjan) (v bound : ℕ) : Tarjan :=
  { t with low := update t.low v (min (t.low v) bound) }

def lowerParent (t : Tarjan) (v : ℕ) : Tarjan :=
  match t.work with
  | [] => t
  | (parent, _) :: _ => t.lower parent (t.low v)

def popUntil (v : ℕ) : List ℕ → Option (List ℕ × List ℕ)
  | [] => none
  | w :: ws => if w = v then some ([w], ws) else (popUntil v ws).map fun (comp, rest) => (w :: comp, rest)

def closeComponent (t : Tarjan) (v : ℕ) : Option Tarjan := do
  let (comp, rest) ← popUntil v t.stack
  return { t with
    stack := rest
    onStack := fun x => if x ∈ comp then false else t.onStack x
    sccs := t.sccs ++ [comp] }

def follow (t : Tarjan) (v si w : ℕ) (rest : List (ℕ × ℕ)) : Tarjan :=
  let t := { t with work := (v, si + 1) :: rest }
  match t.ids w with
  | none => { t with work := (w, 0) :: t.work }
  | some id => if t.onStack w then t.lower v id else t

def finish (t : Tarjan) (v : ℕ) (rest : List (ℕ × ℕ)) : Option Tarjan :=
  let t := { t with work := rest }.lowerParent v
  if some (t.low v) = t.ids v then t.closeComponent v else some t

def step (succ : ℕ → List ℕ) (t : Tarjan) : Option Tarjan :=
  match t.work with
  | [] => some t
  | (v, si) :: rest =>
    let t := if si = 0 then t.enter v else t
    match (succ v)[si]? with
    | some w => some (t.follow v si w rest)
    | none => t.finish v rest

def loop (succ : ℕ → List ℕ) : ℕ → Tarjan → Option Tarjan
  | 0, _ => none
  | fuel + 1, t => if t.work = [] then some t else t.step succ >>= loop succ fuel

def fromRoot (succ : ℕ → List ℕ) (fuel : ℕ) (t : Tarjan) (root : ℕ) : Option Tarjan :=
  if t.ids root = none then loop succ fuel { t with work := [(root, 0)] } else some t

def passes (succ : ℕ → List ℕ) (n : ℕ) : ℕ := ∑ v ∈ Finset.range n, ((succ v).length + 1)

end Tarjan

def sccsOf (succ : ℕ → List ℕ) (n : ℕ) : Option (List (List ℕ)) := do
  let t ← (List.range n).foldlM (Tarjan.fromRoot succ (Tarjan.passes succ n + 1)) Tarjan.start
  return t.sccs

end Vx.Capacity
