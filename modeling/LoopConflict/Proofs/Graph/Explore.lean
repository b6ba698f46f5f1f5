import LoopConflict.Graph.Explore
import Mathlib.Data.List.TakeWhile

/-!
An exploration visits exactly the nodes that can be reached from the pending ones without leaving the
nodes that may be visited (`mem_explore_iff`).
-/
namespace LoopConflict.Graph

/-- The node can be reached from one of the starts through nodes that are all inside. -/
inductive Reach {α : Type} (next : α → List α) (inside : α → Prop) (starts : List α) : α → Prop where
  | start {x : α} : x ∈ starts → inside x → Reach next inside starts x
  | step {x y : α} : Reach next inside starts x → y ∈ next x → inside y → Reach next inside starts y

variable {α : Type} {next : α → List α}

namespace Reach

variable {inside inside' : α → Prop} {starts : List α} {x : α}

theorem holds (reach : Reach next inside starts x) : inside x := by
  cases reach with
  | start _ here => exact here
  | step _ _ here => exact here

theorem mono (weaker : ∀ y, inside y → inside' y) (reach : Reach next inside starts x) :
    Reach next inside' starts x := by
  induction reach with
  | start member here => exact .start member (weaker _ here)
  | step _ edge here ih => exact .step ih edge (weaker _ here)

theorem of_starts {starts' : List α} (more : ∀ y ∈ starts, y ∈ starts') (reach : Reach next inside starts x) :
    Reach next inside starts' x := by
  induction reach with
  | start member here => exact .start (more _ member) here
  | step _ edge here ih => exact .step ih edge here

/-- What a start leads to can be reached. -/
theorem of_next {y : α} (member : y ∈ starts) (here : inside y) (reach : Reach next inside (next y) x) :
    Reach next inside starts x := by
  induction reach with
  | start edge there => exact .step (.start member here) edge there
  | step _ edge there ih => exact .step ih edge there

end Reach

/-! ### Visits -/

variable [DecidableEq α]

theorem mem_of_mem_dropWhile {unvisited pending rest : List α} {x y : α}
    (front : pending.dropWhile (· ∉ unvisited) = x :: rest) (member : y ∈ pending) (left : y ∈ unvisited) :
    y = x ∨ y ∈ rest := by
  have split := List.takeWhile_append_dropWhile (p := (· ∉ unvisited)) (l := pending)
  rw [front] at split
  rw [← split, List.mem_append] at member
  rcases member with dropped | kept
  · have gone := List.mem_takeWhile_imp dropped
    simp [left] at gone
  · exact List.mem_cons.mp kept

theorem head_mem_of_dropWhile {unvisited pending rest : List α} {x : α}
    (front : pending.dropWhile (· ∉ unvisited) = x :: rest) :
    x ∈ unvisited ∧ x ∈ pending ∧ ∀ y ∈ rest, y ∈ pending := by
  have first := List.head?_dropWhile_not (· ∉ unvisited) pending
  rw [front] at first
  have suffix : (x :: rest).Sublist pending := front ▸ List.dropWhile_sublist _
  exact ⟨by simpa using first, suffix.subset (by simp), fun y member => suffix.subset (by simp [member])⟩

/-- What is visited was pending or follows on something visited. -/
theorem reach_of_mem_visit {inside : α → Prop} {starts : List α} {room : Nat} {unvisited pending : List α}
    (within : ∀ y ∈ unvisited, inside y)
    (reached : ∀ y ∈ pending, y ∈ unvisited → Reach next inside starts y) {x : α}
    (visited : x ∈ visit next room unvisited pending) : Reach next inside starts x := by
  induction room generalizing unvisited pending with
  | zero => cases visited
  | succ room ih =>
    rw [visit] at visited
    split at visited
    · cases visited
    · rename_i first rest front
      obtain ⟨left, inPending, others⟩ := head_mem_of_dropWhile front
      have here := reached first inPending left
      rcases List.mem_cons.mp visited with rfl | later
      · exact here
      · refine ih (fun y member => within y (List.mem_of_mem_erase member)) ?_ later
        intro y member remaining
        have still := List.mem_of_mem_erase remaining
        rcases List.mem_append.mp member with follows | before
        · exact .step here follows (within y still)
        · exact reached y (others y before) still

/-- Everything pending is visited, and so is everything that follows on something visited. -/
theorem visit_closed (next : α → List α) {room : Nat} {unvisited : List α} (pending : List α)
    (enough : unvisited.length ≤ room) :
    (∀ y ∈ pending, y ∈ unvisited → y ∈ visit next room unvisited pending) ∧
      ∀ x ∈ visit next room unvisited pending, ∀ y ∈ next x, y ∈ unvisited →
        y ∈ visit next room unvisited pending := by
  induction room generalizing unvisited pending with
  | zero =>
    have none : unvisited = [] := List.eq_nil_of_length_eq_zero (by omega)
    simp [none]
  | succ room ih =>
    rw [visit]
    split
    · rename_i nothing
      refine ⟨fun y member left => ?_, by simp⟩
      have gone := List.dropWhile_eq_nil_iff.mp nothing y member
      simp [left] at gone
    · rename_i first rest front
      obtain ⟨left, _, _⟩ := head_mem_of_dropWhile front
      have shorter : (unvisited.erase first).length ≤ room := by
        rw [List.length_erase_of_mem left]
        omega
      obtain ⟨pendingVisited, closed⟩ := ih (next first ++ rest) shorter
      -- A node other than the first is left for the rest of the visits.
      have later : ∀ y ∈ unvisited, (y ≠ first → y ∈ visit next room (unvisited.erase first) (next first ++ rest)) →
          y ∈ first :: visit next room (unvisited.erase first) (next first ++ rest) := by
        intro y _ visited
        by_cases same : y = first
        · simp [same]
        · exact List.mem_cons_of_mem _ (visited same)
      refine ⟨fun y member still => later y still fun other => ?_, fun x visited y follows still => later y still fun other => ?_⟩
      · have remaining := (List.mem_erase_of_ne other).mpr still
        rcases mem_of_mem_dropWhile front member still with same | inRest
        · exact absurd same other
        · exact pendingVisited y (List.mem_append_right _ inRest) remaining
      · have remaining := (List.mem_erase_of_ne other).mpr still
        rcases List.mem_cons.mp visited with rfl | inRest
        · exact pendingVisited y (List.mem_append_left _ follows) remaining
        · exact closed x inRest y follows remaining

/-- An exploration finds what can be reached, and nothing else. -/
theorem mem_explore_iff {nodes pending : List α} {x : α} :
    x ∈ explore next nodes pending ↔ Reach next (· ∈ nodes) pending x := by
  obtain ⟨starts, closed⟩ := visit_closed next pending (Nat.le_refl nodes.length)
  constructor
  · exact reach_of_mem_visit (fun _ member => member) fun y member left => .start member left
  · intro reach
    induction reach with
    | start member here => exact starts _ member here
    | step _ edge here ih => exact closed _ ih _ edge here

end LoopConflict.Graph
