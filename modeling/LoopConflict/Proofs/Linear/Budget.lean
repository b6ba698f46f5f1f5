import LoopConflict.Proofs.Linear.Solve
import Mathlib.Algebra.BigOperators.Ring.Finset

/-!
What the budget of a search decides. A search that is not cut gives the same answer with any larger
budget and leaves the surplus over, and it visits at most the nodes of the full tree of values, which
has a level for each constrained variable. So a budget beyond the size of that tree always decides a
bounded model, and a verdict once reached stays (`solve_decides_and_keeps`).
-/
namespace LoopConflict.Linear

/-- How many integers lie in the range. -/
def Range.size (r : Range) : Nat :=
  (r.hi.toInt - r.lo.toInt + 1).toNat

/-- The variables whose coefficients do not cancel in some constraint, in the order of declaration. Of
    several declarations of a name only the last can be one of them. -/
def Model.constrainedVars (m : Model) : List Var :=
  (m.vars.zipIdx.filter fun p =>
    decide (m.index p.1.name = some p.2 ∧ ∃ c ∈ m.constraints, c.net p.1.name ≠ 0)).map (·.1)

/-- Every constraint can be brought to one side: its names are declared, and on the way there all sums
    are words and no coefficient is the least one, which has no negation. -/
def Model.Normalizes (m : Model) : Prop :=
  ∀ c ∈ m.constraints, normalize m.index c ≠ .unknown

/-- The nodes of a tree with the given numbers of branches on its levels. -/
def treeSize : List Nat → Nat
  | [] => 1
  | n :: rest => n * treeSize rest + 1

/-- The nodes of a tree, counted level by level. -/
theorem treeSize_eq_sum (sizes : List Nat) :
    treeSize sizes = ∑ d ∈ Finset.range (sizes.length + 1), (sizes.take d).prod := by
  induction sizes with
  | nil => simp [treeSize]
  | cons n rest ih =>
    rw [treeSize, ih, List.length_cons, Finset.sum_range_succ' _ (rest.length + 1), Finset.mul_sum]
    simp

/-- A run that spends its budget before it is cut, and that does not look at what it does not need. -/
structure Persists (run : Nat → Outcome × Nat) : Prop where
  spent : ∀ budget, (run budget).1 = .cut → (run budget).2 = 0
  surplus : ∀ budget extra, (run budget).1 ≠ .cut → run (budget + extra) = ((run budget).1, (run budget).2 + extra)

/-- A run that needs at most `nodes` of its budget, if it has more. -/
def EndsWithin (nodes : Nat) (run : Nat → Outcome × Nat) : Prop :=
  ∀ budget, nodes < budget → (run budget).1 ≠ .cut ∧ budget ≤ (run budget).2 + nodes

theorem EndsWithin.mono {few many : Nat} {run : Nat → Outcome × Nat} (ends : EndsWithin few run)
    (more : few ≤ many) : EndsWithin many run := by
  intro budget enough
  obtain ⟨uncut, left⟩ := ends budget (by omega)
  exact ⟨uncut, by omega⟩

/-- A node whose outcome is settled on the spot. -/
theorem Persists.settled {outcome : Outcome} (uncut : outcome ≠ .cut) : Persists fun left => (outcome, left) :=
  ⟨fun _ cut => absurd cut uncut, fun _ _ _ => rfl⟩

theorem EndsWithin.settled {outcome : Outcome} (uncut : outcome ≠ .cut) : EndsWithin 0 fun left => (outcome, left) :=
  fun _ _ => ⟨uncut, le_rfl⟩

section
variable {run inner : Nat → Outcome × Nat}

/-- A node takes one of the budget and passes the rest on. -/
theorem Persists.node (persists : Persists inner) (empty : run 0 = (.cut, 0))
    (node : ∀ left, run (left + 1) = inner left) : Persists run := by
  refine ⟨fun budget cut => ?_, fun budget extra uncut => ?_⟩
  · cases budget with
    | zero => simp [empty]
    | succ left =>
      rw [node] at cut ⊢
      exact persists.spent left cut
  · cases budget with
    | zero => simp [empty] at uncut
    | succ left =>
      rw [node] at uncut
      rw [Nat.succ_add_eq_add_succ, node, ← persists.surplus left extra uncut]
      exact node (left + extra)

theorem EndsWithin.node {nodes : Nat} (ends : EndsWithin nodes inner)
    (node : ∀ left, run (left + 1) = inner left) : EndsWithin (nodes + 1) run := by
  intro budget enough
  obtain ⟨left, rfl⟩ : ∃ left, budget = left + 1 := ⟨budget - 1, by omega⟩
  obtain ⟨uncut, rest⟩ := ends left (by omega)
  rw [node]
  exact ⟨uncut, by omega⟩

end

/-! ### Trying values in turn -/

section
variable {child : Int64 → Nat → Outcome × Nat} {x : Int64} {above budget left : Nat}

theorem tryValues_found {choice : Choice} (first : child x budget = (.found choice, left)) :
    tryValues child x false above budget = (.found choice, left) := by
  rw [tryValues.eq_def, first]

theorem tryValues_last (first : child x budget = (.exhausted, left)) (remains : left ≠ 0) :
    tryValues child x false 0 budget = (.exhausted, left) := by
  rw [tryValues.eq_def, first]
  simp [remains]

theorem tryValues_next (first : child x budget = (.exhausted, left)) (remains : left ≠ 0) :
    tryValues child x false (above + 1) budget = tryValues child (x + 1) false above left := by
  rw [tryValues.eq_def, first]
  simp [remains]

/-- A trial ends the run by success or for lack of budget, or it is followed by the next one. -/
theorem tryValues_cases (child : Int64 → Nat → Outcome × Nat) (x : Int64) (above budget : Nat)
    (spent : (child x budget).1 = .cut → (child x budget).2 = 0) :
    (∃ choice left, child x budget = (.found choice, left)) ∨
      ((child x budget).2 = 0 ∧ tryValues child x false above budget = (.cut, 0)) ∨
      ∃ left, child x budget = (.exhausted, left) ∧ left ≠ 0 := by
  match result : child x budget with
  | (.found choice, left) => exact .inl ⟨choice, left, rfl⟩
  | (.cut, left) =>
    have nothing : left = 0 := by simpa [result] using spent
    refine .inr (.inl ⟨nothing, ?_⟩)
    rw [tryValues.eq_def, result]
    simp [nothing]
  | (.exhausted, left) =>
    by_cases nothing : left = 0
    · refine .inr (.inl ⟨nothing, ?_⟩)
      rw [tryValues.eq_def, result]
      simp [nothing]
    · exact .inr (.inr ⟨left, rfl, nothing⟩)

theorem tryValues_persists (persists : ∀ x, Persists (child x)) (above : Nat) :
    ∀ x, Persists (tryValues child x false above) := by
  induction above with
  | zero =>
    intro x
    refine ⟨fun budget cut => ?_, fun budget extra uncut => ?_⟩
    · rcases tryValues_cases child x 0 budget ((persists x).spent budget) with
        ⟨choice, left, first⟩ | ⟨_, run⟩ | ⟨left, first, remains⟩
      · simp [tryValues_found first] at cut
      · simp [run]
      · simp [tryValues_last first remains] at cut
    · have more := (persists x).surplus budget extra
      rcases tryValues_cases child x 0 budget ((persists x).spent budget) with
        ⟨choice, left, first⟩ | ⟨_, run⟩ | ⟨left, first, remains⟩
      · rw [first] at more
        rw [tryValues_found first, tryValues_found (more (by simp))]
      · simp [run] at uncut
      · rw [first] at more
        rw [tryValues_last first remains, tryValues_last (more (by simp)) (by omega)]
  | succ above ih =>
    intro x
    refine ⟨fun budget cut => ?_, fun budget extra uncut => ?_⟩
    · rcases tryValues_cases child x (above + 1) budget ((persists x).spent budget) with
        ⟨choice, left, first⟩ | ⟨_, run⟩ | ⟨left, first, remains⟩
      · simp [tryValues_found first] at cut
      · simp [run]
      · rw [tryValues_next first remains] at cut ⊢
        exact (ih (x + 1)).spent left cut
    · have more := (persists x).surplus budget extra
      rcases tryValues_cases child x (above + 1) budget ((persists x).spent budget) with
        ⟨choice, left, first⟩ | ⟨_, run⟩ | ⟨left, first, remains⟩
      · rw [first] at more
        rw [tryValues_found first, tryValues_found (more (by simp))]
      · simp [run] at uncut
      · rw [first] at more
        rw [tryValues_next first remains] at uncut
        rw [tryValues_next first remains, tryValues_next (more (by simp)) (by omega)]
        exact (ih (x + 1)).surplus left extra uncut

/-- Each trial takes its share of the budget. -/
theorem tryValues_endsWithin {nodes : Nat} (ends : ∀ x, EndsWithin nodes (child x)) (above : Nat) :
    ∀ x, EndsWithin ((above + 1) * nodes) (tryValues child x false above) := by
  induction above with
  | zero =>
    intro x budget enough
    obtain ⟨uncut, left⟩ := ends x budget (by omega)
    match first : child x budget with
    | (.found choice, rest) =>
      rw [tryValues_found first]
      simp [first] at left ⊢
      omega
    | (.cut, rest) => simp [first] at uncut
    | (.exhausted, rest) =>
      simp [first] at left
      rw [tryValues_last first (by omega)]
      simp
      omega
  | succ above ih =>
    intro x budget enough
    have share : (above + 1 + 1) * nodes = (above + 1) * nodes + nodes := by ring
    rw [share] at enough
    obtain ⟨uncut, left⟩ := ends x budget (by omega)
    match first : child x budget with
    | (.found choice, rest) =>
      rw [tryValues_found first]
      simp [first] at left ⊢
      omega
    | (.cut, rest) => simp [first] at uncut
    | (.exhausted, rest) =>
      simp [first] at left
      rw [tryValues_next first (by omega)]
      obtain ⟨uncut, below⟩ := ih (x + 1) rest (by omega)
      exact ⟨uncut, by omega⟩

end

/-! ### The search -/

section
variable {equations : List Equation} {ranges : List Range}

/-- A node costs one of the budget. It is settled on the spot, or it tries some of the values in the range
    of the next variable. -/
theorem search_cases (equations : List Equation) (ranges : List Range) (order : List Nat) (choice : Choice) :
    (∃ outcome, outcome ≠ .cut ∧ ∀ left, search equations ranges order choice (left + 1) = (outcome, left)) ∨
      ∃ i rest x above, order = i :: rest ∧ above + 1 ≤ (rangeAt ranges i).size ∧
        ∀ left, search equations ranges order choice (left + 1) =
          tryValues (fun y => search equations ranges rest ((i, y) :: choice)) x false above left := by
  cases order with
  | nil =>
    by_cases accepted : (equations.all (·.isPossible choice ranges) && equations.all (·.holds choice)) = true
    · exact .inl ⟨.found choice, by simp, fun left => by rw [search, if_pos accepted]⟩
    · exact .inl ⟨.exhausted, by simp, fun left => by rw [search, if_neg accepted]⟩
  | cons i rest =>
    by_cases possible : equations.all (·.isPossible choice ranges) = true
    · cases found : candidates? equations ranges choice i with
      | none => exact .inl ⟨.exhausted, by simp, fun left => by rw [search, if_pos possible, found]⟩
      | some r =>
        obtain ⟨ordered, subset⟩ := candidates?_subset found
        have low := subset r.lo.toInt ⟨le_rfl, ordered⟩
        have high := subset r.hi.toInt ⟨ordered, le_rfl⟩
        refine .inr ⟨i, rest, r.lo, (r.hi.toInt - r.lo.toInt).toNat, rfl, ?_, fun left => ?_⟩
        · unfold Range.Contains at low high
          unfold Range.size
          omega
        · rw [search, if_pos possible, found]
    · exact .inl ⟨.exhausted, by simp, fun left => by rw [search, if_neg possible]⟩

theorem search_zero (order : List Nat) (choice : Choice) : search equations ranges order choice 0 = (.cut, 0) := by
  cases order <;> rw [search]

theorem search_persists (order : List Nat) (choice : Choice) : Persists (search equations ranges order choice) := by
  rcases search_cases equations ranges order choice with
    ⟨outcome, uncut, node⟩ | ⟨i, rest, x, above, rfl, _, node⟩
  · exact (Persists.settled uncut).node (search_zero order choice) node
  · have trials := tryValues_persists (fun y => search_persists rest ((i, y) :: choice)) above x
    exact trials.node (search_zero _ choice) node
termination_by order.length

/-- A search visits at most the nodes of the full tree of values. -/
theorem search_endsWithin (order : List Nat) (choice : Choice) :
    EndsWithin (treeSize (order.map fun i => (rangeAt ranges i).size)) (search equations ranges order choice) := by
  rcases search_cases equations ranges order choice with
    ⟨outcome, uncut, node⟩ | ⟨i, rest, x, above, rfl, branches, node⟩
  · refine ((EndsWithin.settled uncut).node node).mono ?_
    cases order <;> simp [treeSize]
  · have trials := tryValues_endsWithin (fun y => search_endsWithin rest ((i, y) :: choice)) above x
    refine (trials.node node).mono ?_
    rw [List.map_cons, treeSize]
    gcongr
termination_by order.length

end

/-! ### The verdict on a model -/

section
variable {m : Model} {equations : List Equation}

/-- The equations use exactly the constrained variables. -/
theorem Model.isUsed_eq (succeeded : equationsOf m.index m.constraints = .ok equations) {i : Nat} {v : Var}
    (declared : m.vars[i]? = some v) :
    isUsed equations i = decide (m.index v.name = some i ∧ ∃ c ∈ m.constraints, c.net v.name ≠ 0) := by
  rw [Bool.eq_iff_iff, decide_eq_true_eq, ← Model.mem_order_iff succeeded, ← Model.constrained_iff succeeded]
  constructor
  · rintro ⟨name, last, remains⟩
    obtain rfl : v.name = name := by simpa [declared] using last.1
    exact ⟨Model.index_eq_some_iff.mpr last, remains⟩
  · rintro ⟨known, remains⟩
    exact ⟨v.name, Model.index_eq_some_iff.mp known, remains⟩

theorem Model.constrainedVars_eq (succeeded : equationsOf m.index m.constraints = .ok equations) :
    m.constrainedVars = (m.vars.zipIdx.filter fun p => isUsed equations p.2).map (·.1) := by
  rw [Model.constrainedVars]
  congr 1
  refine List.filter_congr fun p member => ?_
  exact (Model.isUsed_eq succeeded (List.mem_zipIdx_iff_getElem?.mp member)).symm

/-- The search goes through the constrained variables, in order. -/
theorem Model.sizes_order (succeeded : equationsOf m.index m.constraints = .ok equations) :
    (m.order equations).map (fun i => (rangeAt (m.vars.map Var.range) i).size) =
      m.constrainedVars.map fun v => v.range.size := by
  have positions : List.range m.vars.length = m.vars.zipIdx.map (·.2) := by
    simp [List.zipIdx_map_snd, List.range_eq_range']
  rw [Model.order, positions, List.filter_map, Model.constrainedVars_eq succeeded, List.map_map, List.map_map]
  refine List.map_congr_left fun p member => ?_
  have declared : m.vars[p.2]? = some p.1 := List.mem_zipIdx_iff_getElem?.mp (List.mem_filter.mp member).1
  simp [Model.rangeAt_eq declared]

theorem Model.verdict_status (m : Model) {outcome : Outcome} (uncut : outcome ≠ .cut) :
    (m.verdict outcome).status = .feasible ∨ (m.verdict outcome).status = .infeasible := by
  cases outcome with
  | found choice => exact .inl rfl
  | exhausted => exact .inr rfl
  | cut => exact absurd rfl uncut

end

/-- A bounded model whose constraints can be brought to one side is decided if the budget exceeds the
    size of the tree of values: the sum, over the levels, of the products of the first domain sizes. And
    once a model is decided, a larger budget gives the same verdict with the same witness. -/
theorem solve_decides_and_keeps (m : Model) :
    (m.Normalizes → (∀ v ∈ m.constrainedVars, v.isBounded = true) →
      ∀ budget : Int,
        ((∑ d ∈ Finset.range (m.constrainedVars.length + 1),
          ((m.constrainedVars.map fun v => v.range.size).take d).prod : Nat) : Int) < budget →
        (solve m budget).status = .feasible ∨ (solve m budget).status = .infeasible) ∧
    ∀ budget larger : Int, 1 ≤ budget → budget ≤ larger → (solve m budget).status ≠ .unknown →
      solve m larger = solve m budget := by
  rcases solve_cases m with ⟨s, failed, answer⟩ | ⟨equations, succeeded, rest⟩
  · refine ⟨fun normalizes _ budget _ => ?_, fun budget larger _ _ _ => by rw [answer, answer]⟩
    rcases equationsOf_error failed with ⟨_, c, member, undecided⟩ | ⟨rfl, _⟩
    · exact absurd undecided (normalizes c member)
    · simp [answer]
  · rcases rest with ⟨_, answer⟩ | ⟨⟨i, v, declared, used, unbounded⟩, answer⟩ | ⟨_, _, answer⟩
    · exact ⟨fun _ _ budget _ => by simp [answer], fun budget larger _ _ _ => by rw [answer, answer]⟩
    · refine ⟨fun _ bounded budget _ => ?_, fun budget larger _ _ _ => by rw [answer, answer]⟩
      have constrained : v ∈ m.constrainedVars := by
        rw [Model.constrainedVars_eq succeeded]
        exact List.mem_map.mpr ⟨(v, i), List.mem_filter.mpr ⟨List.mem_zipIdx_iff_getElem?.mpr declared, used⟩, rfl⟩
      simp [bounded v constrained] at unbounded
    · refine ⟨fun _ _ budget enough => ?_, fun budget larger positive le decided => ?_⟩
      · have ends : EndsWithin _ (search equations (m.vars.map Var.range) (m.order equations) []) := search_endsWithin _ _
        rw [Model.sizes_order succeeded, treeSize_eq_sum, List.length_map] at ends
        have nodes : searchNodes budget = budget.toNat := by
          rw [searchNodes, if_neg (by omega)]
        rw [answer, nodes]
        exact m.verdict_status (ends budget.toNat (by omega)).1
      · have nodes : searchNodes larger = searchNodes budget + (larger - budget).toNat := by
          rw [searchNodes, searchNodes, if_neg (by omega), if_neg (by omega)]
          omega
        have uncut : (search equations (m.vars.map Var.range) (m.order equations) [] (searchNodes budget)).1 ≠ .cut := by
          intro cut
          rw [answer, cut] at decided
          exact decided rfl
        rw [answer, answer, nodes, (search_persists _ _).surplus _ _ uncut]

/-- `3 * x + 3 * y = 3 * z + 3` over three values each, beside a variable that cancels: the tree of values
    has 40 nodes. -/
def threeLevels : Model where
  label := "obj"
  vars := [⟨"x", some 0, some 2⟩, ⟨"y", some 0, some 2⟩, ⟨"free", none, none⟩, ⟨"z", some 1, some 3⟩]
  objective := "x"
  constraints := [⟨"eqn0", ⟨[⟨3, "x"⟩, ⟨3, "y"⟩], 0⟩, ⟨[⟨3, "z"⟩, ⟨1, "free"⟩, ⟨-1, "free"⟩], 3⟩⟩]

theorem threeLevels_decided :
    ((solve threeLevels 41).status = .feasible ∨ (solve threeLevels 41).status = .infeasible) ∧
      (solve threeLevels 5).status = .unknown ∧ solve threeLevels 6 = solve threeLevels 41 := by
  have normalizes : threeLevels.Normalizes := by unfold Model.Normalizes; decide +kernel
  have bounded : ∀ v ∈ threeLevels.constrainedVars, v.isBounded = true := by decide +kernel
  have early : solve threeLevels 6 = ⟨.feasible, [("x", 0), ("y", 2), ("free", 0), ("z", 1)]⟩ := by decide +kernel
  refine ⟨(solve_decides_and_keeps threeLevels).1 normalizes bounded 41 (by decide +kernel), by decide +kernel, ?_⟩
  exact ((solve_decides_and_keeps threeLevels).2 6 41 (by decide) (by decide) (by rw [early]; decide)).symm

end LoopConflict.Linear
