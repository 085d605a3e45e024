import Mathlib

namespace Vx.Lib.Readable

inductive Tree (α : Type)
  | node (label : α) (children : List (Tree α))

mutual

def Tree.decEq {α : Type} [DecidableEq α] : (t u : Tree α) → Decidable (t = u)
  | .node label ts, .node label' us =>
    if hlabel : label = label' then
      match Tree.decEqAll ts us with
      | isTrue h => isTrue (by rw [hlabel, h])
      | isFalse h => isFalse fun heq => h (Tree.node.inj heq).2
    else isFalse fun heq => hlabel (Tree.node.inj heq).1

def Tree.decEqAll {α : Type} [DecidableEq α] : (ts us : List (Tree α)) → Decidable (ts = us)
  | [], [] => isTrue rfl
  | [], _ :: _ => isFalse nofun
  | _ :: _, [] => isFalse nofun
  | t :: ts, u :: us =>
    match Tree.decEq t u, Tree.decEqAll ts us with
    | isTrue h, isTrue hs => isTrue (by rw [h, hs])
    | isFalse h, _ => isFalse fun heq => h (List.cons.inj heq).1
    | _, isFalse hs => isFalse fun heq => hs (List.cons.inj heq).2

end

instance {α : Type} [DecidableEq α] : DecidableEq (Tree α) := Tree.decEq

end Vx.Lib.Readable
