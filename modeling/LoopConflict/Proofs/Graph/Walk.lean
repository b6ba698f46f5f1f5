import LoopConflict.Proofs.Graph.Explore

/-!
Depth-first walks by recursion: a node is entered unless it has been seen, and all that it leads to is walked before
the next one (`Walk`). A walk is over after finitely many nodes and has one order. An exploration keeps the pending
nodes in a list instead, and gets to the nodes in that order (`walk_explore`). So a walk enters what can be reached,
each node once (`Walk.nodup`). It makes no difference whether a node counts as seen at once if, where the walk gets
to it, all that it leads to has been seen (`Walk.seen_earlier`).
-/
namespace LoopConflict.Graph

/-- The nodes that a walk from the starts enters, in order. Nodes that are not inside are passed by, and so are those
    that have been seen. -/
inductive Walk {α : Type} (next : α → List α) (inside : α → Prop) : (seen starts order : List α) → Prop where
  | done {seen : List α} : Walk next inside seen [] []
  | pass {seen starts order : List α} {x : α} :
    (inside x → x ∈ seen) → Walk next inside seen starts order → Walk next inside seen (x :: starts) order
  | enter {seen starts below after : List α} {x : α} :
    inside x → x ∉ seen → Walk next inside (x :: seen) (next x) below →
    Walk next inside (below ++ x :: seen) starts after → Walk next inside seen (x :: starts) (x :: (below ++ after))

namespace Walk

variable {α : Type} {next : α → List α} {inside : α → Prop} {seen starts order : List α}

/-- A walk goes one way. -/
theorem unique {order' : List α} (walk : Walk next inside seen starts order)
    (walk' : Walk next inside seen starts order') : order = order' := by
  induction walk generalizing order' with
  | done =>
    cases walk'
    rfl
  | pass skipped _ ih =>
    cases walk' with
    | pass _ rest' => exact ih rest'
    | enter here fresh _ _ => exact absurd (skipped here) fresh
  | enter here fresh _ _ ihBelow ihAfter =>
    cases walk' with
    | pass skipped' _ => exact absurd (skipped' here) fresh
    | enter _ _ below' after' =>
      obtain rfl := ihBelow below'
      obtain rfl := ihAfter after'
      rfl

/-- Only which nodes have been seen counts. -/
theorem of_seen {seen' : List α} (same : ∀ y, y ∈ seen ↔ y ∈ seen') (walk : Walk next inside seen starts order) :
    Walk next inside seen' starts order := by
  induction walk generalizing seen' with
  | done => exact .done
  | pass skipped _ ih => exact .pass (fun here => (same _).mp (skipped here)) (ih same)
  | enter here fresh _ _ ihBelow ihAfter =>
    refine .enter here (fun member => fresh ((same _).mpr member)) (ihBelow fun y => ?_) (ihAfter fun y => ?_)
    · simp only [List.mem_cons, same]
    · simp only [List.mem_append, List.mem_cons, same]

theorem eq_nil (walk : Walk next inside seen starts order) (all : ∀ y ∈ starts, inside y → y ∈ seen) : order = [] := by
  induction walk with
  | done => rfl
  | pass _ _ ih => exact ih fun y member => all y (List.mem_cons_of_mem _ member)
  | enter here fresh _ _ _ _ => exact absurd (all _ (by simp) here) fresh

/-- A node that leads to nothing new can count as seen from the start. -/
theorem seen_earlier [DecidableEq α] {a : α} (walk : Walk next inside seen starts order)
    (spent : Reach next inside starts a → ∀ y ∈ next a, inside y → y ∈ seen ∨ y = a) :
    Walk next inside (a :: seen) starts (order.filter (· ≠ a)) := by
  induction walk with
  | done => exact .done
  | pass skipped _ ih =>
    refine .pass (fun here => List.mem_cons_of_mem _ (skipped here)) (ih fun reach => spent ?_)
    exact reach.of_starts fun _ member => List.mem_cons_of_mem _ member
  | @enter seen starts below after x here fresh walkBelow walkAfter ihBelow ihAfter =>
    have later : Walk next inside (a :: (below ++ x :: seen)) starts (after.filter (· ≠ a)) := by
      refine ihAfter fun reach y edge inside => ?_
      have reached := reach.of_starts fun _ member => List.mem_cons_of_mem x member
      rcases spent reached y edge inside with old | same
      · exact .inl (by simp [old])
      · exact .inr same
    by_cases met : x = a
    · -- All that the node leads to has been seen, and it is passed by.
      subst met
      obtain rfl : below = [] := by
        refine walkBelow.eq_nil fun y edge inside => ?_
        rcases spent (.start (by simp) here) y edge inside with old | same
        · exact List.mem_cons_of_mem _ old
        · simp [same]
      refine .pass (fun _ => by simp) ?_
      simpa using later.of_seen (by simp)
    · have deeper : Walk next inside (a :: x :: seen) (next x) (below.filter (· ≠ a)) := by
        refine ihBelow fun reach y edge inside => ?_
        rcases spent (reach.of_next (by simp) here) y edge inside with old | same
        · exact .inl (List.mem_cons_of_mem _ old)
        · exact .inr same
      rw [List.filter_cons_of_pos (by simpa using met), List.filter_append]
      refine .enter here (by simp [met, fresh]) (deeper.of_seen fun y => ?_) (later.of_seen fun y => ?_)
      · simp only [List.mem_cons]
        exact or_left_comm
      · by_cases same : y = a <;> simp [same]

/-- A node that leads to the only start and to nothing else can count as seen from the start. -/
theorem seen_of_next_eq [DecidableEq α] {a x : α} (walk : Walk next inside [] [x] order) (leads : next a = [x]) :
    Walk next inside [a] [x] (order.filter (· ≠ a)) := by
  cases walk with
  | pass skipped rest =>
    cases rest
    exact .pass (fun here => absurd (skipped here) List.not_mem_nil) .done
  | @enter _ _ below _ _ here fresh walkBelow rest =>
    cases rest
    by_cases same : x = a
    · subst same
      obtain rfl : below = [] := walkBelow.eq_nil (by simp [leads])
      rw [List.filter_cons_of_neg (by simp)]
      exact .pass (fun _ => by simp) .done
    · have deeper := walkBelow.seen_earlier (a := a) fun _ y edge _ => .inl (leads ▸ edge)
      rw [List.filter_cons_of_pos (by simpa using same), List.filter_append]
      refine .enter here (by simpa using same) (deeper.of_seen fun y => ?_) .done
      simp only [List.mem_cons]
      exact or_left_comm

theorem nodup (walk : Walk next inside seen starts order) : order.Nodup ∧ ∀ y ∈ order, y ∉ seen := by
  induction walk with
  | done => exact ⟨.nil, by simp⟩
  | pass _ _ ih => exact ih
  | enter here fresh _ _ ihBelow ihAfter =>
    obtain ⟨onceBelow, freshBelow⟩ := ihBelow
    obtain ⟨onceAfter, freshAfter⟩ := ihAfter
    grind

end Walk

/-! ### Explorations -/

variable {α : Type} [DecidableEq α] {next : α → List α}

theorem explore_nil (unvisited : List α) : explore next unvisited [] = [] := by
  cases unvisited <;> rfl

theorem explore_cons_of_not_mem {unvisited pending : List α} {x : α} (gone : x ∉ unvisited) :
    explore next unvisited (x :: pending) = explore next unvisited pending := by
  cases unvisited with
  | nil => rfl
  | cons y rest =>
    have front : (x :: pending).dropWhile (· ∉ y :: rest) = pending.dropWhile (· ∉ y :: rest) :=
      List.dropWhile_cons_of_pos (by simpa using gone)
    rw [explore, explore, List.length_cons, visit, visit, front]

theorem explore_cons_of_mem {unvisited pending : List α} {x : α} (left : x ∈ unvisited) :
    explore next unvisited (x :: pending) = x :: explore next (unvisited.erase x) (next x ++ pending) := by
  have room : unvisited.length = (unvisited.erase x).length + 1 := by
    have := List.length_pos_of_mem left
    rw [List.length_erase_of_mem left]
    omega
  have front : (x :: pending).dropWhile (· ∉ unvisited) = x :: pending :=
    List.dropWhile_cons_of_neg (by simpa using left)
  rw [explore, room, visit, front, explore]

/-- An exploration first walks from the nodes at the front, and goes on with what that leaves unvisited. -/
theorem exists_walk_append {inside : α → Prop} {seen unvisited : List α} (once : unvisited.Nodup)
    (left : ∀ y, y ∈ unvisited ↔ inside y ∧ y ∉ seen) (starts : List α) :
    ∃ order unvisited', Walk next inside seen starts order ∧ unvisited'.Nodup ∧ unvisited'.length ≤ unvisited.length ∧
      (∀ y, y ∈ unvisited' ↔ inside y ∧ y ∉ order ++ seen) ∧
      ∀ pending, explore next unvisited (starts ++ pending) = order ++ explore next unvisited' pending := by
  -- The walk below a node and the one after it both start with that node visited, so the number of unvisited nodes
  -- decreases.
  induction size : unvisited.length using Nat.strong_induction_on generalizing seen unvisited starts with
  | _ n shorter =>
    induction starts with
    | nil => exact ⟨[], unvisited, .done, once, by omega, left, fun _ => rfl⟩
    | cons x starts ih =>
      by_cases here : x ∈ unvisited
      · obtain ⟨insideX, fresh⟩ := (left x).mp here
        have fewer : (unvisited.erase x).length < n := by
          have := List.length_pos_of_mem here
          rw [List.length_erase_of_mem here]
          omega
        have left' : ∀ y, y ∈ unvisited.erase x ↔ inside y ∧ y ∉ x :: seen := by
          intro y
          rw [once.mem_erase_iff, left, List.mem_cons, not_or]
          exact and_left_comm
        obtain ⟨below, unvisited₁, walkBelow, once₁, fewer₁, left₁, goesOn₁⟩ :=
          shorter _ fewer (once.erase x) left' (next x) rfl
        obtain ⟨after, unvisited₂, walkAfter, once₂, fewer₂, left₂, goesOn₂⟩ :=
          shorter _ (by omega) once₁ left₁ starts rfl
        refine ⟨x :: (below ++ after), unvisited₂, .enter insideX fresh walkBelow walkAfter, once₂, by omega,
          fun y => ?_, fun pending => ?_⟩
        · rw [left₂]
          grind
        · rw [List.cons_append, explore_cons_of_mem here, goesOn₁, goesOn₂]
          simp
      · obtain ⟨order, unvisited', walk, once', fewer', left', goesOn⟩ := ih
        refine ⟨order, unvisited', .pass (fun insideX => ?_) walk, once', fewer', left', fun pending => ?_⟩
        · exact Classical.not_not.mp fun fresh => here ((left x).mpr ⟨insideX, fresh⟩)
        · rw [List.cons_append, explore_cons_of_not_mem here, goesOn]

/-- An exploration gets to the nodes in the order of a walk. -/
theorem walk_explore {inside : α → Prop} {seen unvisited : List α} (once : unvisited.Nodup)
    (left : ∀ y, y ∈ unvisited ↔ inside y ∧ y ∉ seen) (starts : List α) :
    Walk next inside seen starts (explore next unvisited starts) := by
  obtain ⟨order, unvisited', walk, _, _, _, goesOn⟩ := exists_walk_append once left starts
  have explored := goesOn []
  rw [List.append_nil, explore_nil, List.append_nil] at explored
  exact explored ▸ walk

end LoopConflict.Graph
