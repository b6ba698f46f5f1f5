/-!
Depth-first exploration of a finite graph: the nodes that can be reached, each once, in the order of
their first visit.
-/
namespace LoopConflict.Graph

/-- Visits the pending nodes and what they lead to, one after the other. Only the nodes of
    `unvisited` are visited, of which there are at most `room`; a visited node's successors are
    pending before everything else. -/
def visit {α : Type} [DecidableEq α] (next : α → List α) :
    (room : Nat) → (unvisited pending : List α) → List α
  | 0, _, _ => []
  | room + 1, unvisited, pending =>
    match pending.dropWhile (· ∉ unvisited) with
    | [] => []
    | x :: rest => x :: visit next room (unvisited.erase x) (next x ++ rest)

/-- The nodes among `nodes` that can be reached from the pending ones through `nodes`, in the order of
    their first visit. -/
def explore {α : Type} [DecidableEq α] (next : α → List α) (nodes pending : List α) : List α :=
  visit next nodes.length nodes pending

end LoopConflict.Graph
