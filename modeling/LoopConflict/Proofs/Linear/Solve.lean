import LoopConflict.Proofs.Linear.Search

/-!
The verdict on a model is the truth about its integer solutions. A variable name stands for its last
declaration, an undeclared name for any value, and everything is meant over the integers, also where
coefficients and bounds are at the ends of the range of words. A model that is infeasible has no
solution (`solve_infeasible_no_solution`); the witness of a feasible one solves it, and no solution
comes before it in the order of the constrained variables (`solve_feasible_least`).
-/
namespace LoopConflict.Linear

/-- The bounds that are present admit the integer. -/
structure Var.Admits (v : Var) (n : Int) : Prop where
  lower : ∀ lo, v.lower = some lo → lo.toInt ≤ n
  upper : ∀ hi, v.upper = some hi → n ≤ hi.toInt

namespace Model

/-- The last declaration of the name stands at `i`. -/
def IsLast (m : Model) (i : Nat) (name : String) : Prop :=
  (m.vars[i]?).map Var.name = some name ∧ ∀ j, i < j → (m.vars[j]?).map Var.name ≠ some name

/-- Every declared name has the value of its last declaration; the others may have any. -/
def Denotes (m : Model) (x : Nat → Int) (v : String → Int) : Prop :=
  ∀ i name, m.IsLast i name → v name = x i

/-- The declared variables have values within their bounds, under which all constraints hold over the
    integers. -/
structure Solution (m : Model) (x : Nat → Int) (v : String → Int) : Prop where
  admitted : ∀ (i : Nat) (var : Var), m.vars[i]? = some var → var.Admits (x i)
  denoted : m.Denotes x v
  holds : ∀ c ∈ m.constraints, c.Holds v

/-- The coefficients of the variable at `i` do not cancel in some constraint. -/
def Constrained (m : Model) (i : Nat) : Prop :=
  ∃ name, m.IsLast i name ∧ ∃ c ∈ m.constraints, c.net name ≠ 0

end Model

/-- The values of a witness, by position. -/
def Result.assignment (r : Result) (i : Nat) : Int :=
  ((r.witness[i]?).map fun a => a.2.toInt).getD 0

/-! ### Names -/

/-- The position that the solver looks a name up at. -/
def Model.index (m : Model) : String → Option Nat :=
  lastIndex? (m.vars.map Var.name)

theorem Model.index_eq_some_iff {m : Model} {name : String} {i : Nat} :
    m.index name = some i ↔ m.IsLast i name := by
  simp only [Model.index, Model.IsLast, lastIndex?_eq_some_iff, List.getElem?_map]

theorem Model.reads_iff {m : Model} {x : Nat → Int} {v : String → Int} : Reads m.index x v ↔ m.Denotes x v := by
  constructor
  · intro reads i name last
    exact reads name i (Model.index_eq_some_iff.mpr last)
  · intro denotes name i known
    exact denotes i name (Model.index_eq_some_iff.mp known)

/-- Every assignment of the declared variables gives values to all names. -/
theorem Model.exists_denotes (m : Model) (x : Nat → Int) : ∃ v, m.Denotes x v := by
  refine ⟨fun name => ((m.index name).map x).getD 0, fun i name last => ?_⟩
  simp [Model.index_eq_some_iff.mpr last]

/-- A position stands for one name at most. -/
theorem Model.index_eq_some_iff_eq {m : Model} {name : String} {i : Nat} (last : m.IsLast i name) (n : String) :
    m.index n = some i ↔ n = name := by
  constructor
  · intro known
    have found := (Model.index_eq_some_iff.mp known).1
    rw [last.1] at found
    exact (Option.some.inj found).symm
  · rintro rfl
    exact Model.index_eq_some_iff.mpr last

/-! ### Equations of a model -/

section
variable {index : String → Option Nat} {constraints : List Constraint} {equations : List Equation}

/-- A constraint gives a verdict on its own only if it is refused or cannot be decided. -/
theorem equationsOf_error {s : Status} (failed : equationsOf index constraints = .error s) :
    (s = .unknown ∧ ∃ c ∈ constraints, normalize index c = .unknown) ∨
      s = .infeasible ∧ ∃ c ∈ constraints, normalize index c = .infeasible := by
  induction constraints with
  | nil => cases failed
  | cons c rest ih =>
    rw [equationsOf] at failed
    split at failed
    · rename_i refused
      cases failed
      exact .inr ⟨rfl, c, by simp, refused⟩
    · rename_i undecided
      cases failed
      exact .inl ⟨rfl, c, by simp, undecided⟩
    · cases tail : equationsOf index rest with
      | ok es =>
        rw [tail] at failed
        cases failed
      | error t =>
        rw [tail] at failed
        cases failed
        rcases ih tail with ⟨unknown, d, member, undecided⟩ | ⟨infeasible, d, member, refused⟩
        · exact .inl ⟨unknown, d, List.mem_cons_of_mem _ member, undecided⟩
        · exact .inr ⟨infeasible, d, List.mem_cons_of_mem _ member, refused⟩

/-- The equations are those of the constraints, without the ones that have no variables. -/
theorem equationsOf_ok (succeeded : equationsOf index constraints = .ok equations) :
    (∀ c ∈ constraints, ∃ e, normalize index c = .equation e ∧ (e.terms = [] ∨ e ∈ equations)) ∧
      ∀ e ∈ equations, ∃ c ∈ constraints, normalize index c = .equation e := by
  induction constraints generalizing equations with
  | nil =>
    cases succeeded
    simp
  | cons c rest ih =>
    rw [equationsOf] at succeeded
    split at succeeded
    · cases succeeded
    · cases succeeded
    · rename_i e normal
      cases tail : equationsOf index rest with
      | error t =>
        rw [tail] at succeeded
        cases succeeded
      | ok es =>
        rw [tail] at succeeded
        obtain ⟨kept, origin⟩ := ih tail
        have result : (if e.terms.isEmpty then es else e :: es) = equations := Except.ok.inj succeeded
        by_cases empty : e.terms = []
        · rw [if_pos (List.isEmpty_iff.mpr empty)] at result
          subst result
          refine ⟨fun d member => ?_, fun f member => ?_⟩
          · rcases List.mem_cons.mp member with rfl | later
            · exact ⟨e, normal, .inl empty⟩
            · exact kept d later
          · obtain ⟨d, later, from_d⟩ := origin f member
            exact ⟨d, List.mem_cons_of_mem _ later, from_d⟩
        · rw [if_neg (by simpa using empty)] at result
          subst result
          refine ⟨fun d member => ?_, fun f member => ?_⟩
          · rcases List.mem_cons.mp member with rfl | later
            · exact ⟨e, normal, .inr (by simp)⟩
            · obtain ⟨f, from_d, place⟩ := kept d later
              exact ⟨f, from_d, place.imp id (List.mem_cons_of_mem _)⟩
          · rcases List.mem_cons.mp member with rfl | later
            · exact ⟨c, by simp, normal⟩
            · obtain ⟨d, earlier, from_d⟩ := origin f later
              exact ⟨d, List.mem_cons_of_mem _ earlier, from_d⟩

theorem reduced_of_equationsOf (succeeded : equationsOf index constraints = .ok equations) :
    ∀ e ∈ equations, e.Reduced := by
  intro e member
  obtain ⟨c, _, normal⟩ := (equationsOf_ok succeeded).2 e member
  exact reduced_of_normalize normal

/-- The equations hold exactly where the constraints do. -/
theorem holds_of_equationsOf (succeeded : equationsOf index constraints = .ok equations) {x : Nat → Int}
    {v : String → Int} (reads : Reads index x v) :
    (∀ e ∈ equations, e.Holds x) ↔ ∀ c ∈ constraints, c.Holds v := by
  obtain ⟨kept, origin⟩ := equationsOf_ok succeeded
  constructor
  · intro all c member
    obtain ⟨e, normal, empty | inside⟩ := kept c member
    · refine (holds_of_normalize normal reads).mp ?_
      rw [Equation.Holds, empty, rhs_of_normalize normal empty]
      rfl
    · exact (holds_of_normalize normal reads).mp (all e inside)
  · intro all e member
    obtain ⟨c, inside, normal⟩ := origin e member
    exact (holds_of_normalize normal reads).mpr (all c inside)

/-- The equations use a variable iff its coefficients do not cancel in some constraint. -/
theorem isUsed_of_equationsOf (succeeded : equationsOf index constraints = .ok equations) {name : String} {i : Nat}
    (only : ∀ n, index n = some i ↔ n = name) :
    isUsed equations i = true ↔ ∃ c ∈ constraints, c.net name ≠ 0 := by
  obtain ⟨kept, origin⟩ := equationsOf_ok succeeded
  rw [isUsed_iff]
  constructor
  · rintro ⟨e, member, inside⟩
    obtain ⟨c, present, normal⟩ := origin e member
    exact ⟨c, present, (mem_keys_of_normalize normal only).mp inside⟩
  · rintro ⟨c, member, remains⟩
    obtain ⟨e, normal, place⟩ := kept c member
    have inside := (mem_keys_of_normalize normal only).mpr remains
    rcases place with empty | present
    · simp [empty] at inside
    · exact ⟨e, present, inside⟩

theorem exists_name_of_isUsed (succeeded : equationsOf index constraints = .ok equations) {i : Nat}
    (used : isUsed equations i = true) : ∃ name, index name = some i := by
  obtain ⟨e, member, inside⟩ := isUsed_iff.mp used
  obtain ⟨c, _, normal⟩ := (equationsOf_ok succeeded).2 e member
  exact exists_name_of_normalize normal inside

end

/-! ### Bounds -/

theorem Var.not_admits_of_isEmpty {v : Var} (empty : v.isEmpty = true) (n : Int) : ¬ v.Admits n := by
  intro admits
  unfold Var.isEmpty at empty
  split at empty
  · rename_i lo hi lower upper
    have low := admits.lower lo lower
    have high := admits.upper hi upper
    have crossed := Int64.lt_iff_toInt_lt.mp (of_decide_eq_true empty)
    omega
  · cases empty

/-- The range of a variable with both bounds is what the bounds admit. -/
theorem Var.range_contains_iff {v : Var} (bounded : v.isBounded = true) (n : Int) :
    v.range.Contains n ↔ v.Admits n := by
  obtain ⟨name, lower, upper⟩ := v
  simp only [Var.isBounded, Bool.and_eq_true, Option.isSome_iff_exists] at bounded
  obtain ⟨⟨lo, rfl⟩, ⟨hi, rfl⟩⟩ := bounded
  constructor
  · rintro ⟨low, high⟩
    exact ⟨fun _ same => Option.some.inj same ▸ low, fun _ same => Option.some.inj same ▸ high⟩
  · intro admits
    exact ⟨admits.lower lo rfl, admits.upper hi rfl⟩

/-- The value that an unconstrained variable gets is within its bounds. -/
theorem Var.admits_range_lo {v : Var} (nonempty : v.isEmpty = false) : v.Admits v.range.lo.toInt := by
  obtain ⟨name, lower, upper⟩ := v
  match lower, upper with
  | some lo, some hi =>
    have ordered : ¬ hi.toInt < lo.toInt := by
      simpa [Var.isEmpty, Int64.lt_iff_toInt_lt] using nonempty
    refine ⟨fun _ same => ?_, fun _ same => ?_⟩
    · cases same
      exact le_rfl
    · cases same
      simp only [Var.range]
      omega
  | some lo, none =>
    refine ⟨fun _ same => ?_, fun _ same => by cases same⟩
    cases same
    exact le_rfl
  | none, some hi =>
    refine ⟨fun _ same => (by cases same), fun _ same => ?_⟩
    cases same
    simp only [Var.range]
    split
    · exact le_rfl
    · rename_i positive
      simpa [Int64.lt_iff_toInt_lt] using positive
  | none, none => exact ⟨fun _ same => (by cases same), fun _ same => by cases same⟩

/-! ### The verdict -/

/-- The variables that the search goes through. -/
def Model.order (m : Model) (equations : List Equation) : List Nat :=
  (List.range m.vars.length).filter (isUsed equations)

/-- The answer that an outcome of the search gives. -/
def Model.verdict (m : Model) : Outcome → Result
  | .found choice => ⟨.feasible, m.vars.zipIdx.map fun p => (p.1.name, (choice.lookup p.2).getD p.1.range.lo)⟩
  | .exhausted => ⟨.infeasible, []⟩
  | .cut => ⟨.unknown, []⟩

/-- The nodes that a search with the given budget may visit. -/
def searchNodes (budget : Int) : Nat :=
  if budget ≤ 0 then defaultBudget else budget.toNat

/-- The ways in which a verdict comes about: a constraint settles it, a variable has no value, a used
    variable lacks a bound, or the search decides. Only the search looks at the budget. -/
theorem solve_cases (m : Model) :
    (∃ s, equationsOf m.index m.constraints = .error s ∧ ∀ budget, solve m budget = ⟨s, []⟩) ∨
      ∃ equations, equationsOf m.index m.constraints = .ok equations ∧
        ((∃ v ∈ m.vars, v.isEmpty = true) ∧ (∀ budget, solve m budget = ⟨.infeasible, []⟩) ∨
          (∃ (i : Nat) (v : Var), m.vars[i]? = some v ∧ isUsed equations i = true ∧ v.isBounded = false) ∧
            (∀ budget, solve m budget = ⟨.unknown, []⟩) ∨
          (∀ v ∈ m.vars, v.isEmpty = false) ∧
            (∀ (i : Nat) (v : Var), m.vars[i]? = some v → isUsed equations i → v.isBounded = true) ∧
            ∀ budget, solve m budget =
              m.verdict (search equations (m.vars.map Var.range) (m.order equations) [] (searchNodes budget)).1) := by
  unfold solve
  cases settled : equationsOf (lastIndex? (m.vars.map Var.name)) m.constraints with
  | error s => exact .inl ⟨s, settled, fun _ => rfl⟩
  | ok equations =>
    refine .inr ⟨equations, settled, ?_⟩
    dsimp only
    split
    · rename_i empty
      exact .inl ⟨List.any_eq_true.mp empty, fun _ => rfl⟩
    · rename_i nonempty
      split
      · rename_i unbounded
        obtain ⟨⟨v, i⟩, member, lacking⟩ := List.any_eq_true.mp unbounded
        simp only [Bool.and_eq_true, Bool.not_eq_true'] at lacking
        exact .inr (.inl ⟨⟨i, v, List.mem_zipIdx_iff_getElem?.mp member, lacking.1, lacking.2⟩, fun _ => rfl⟩)
      · rename_i bounded
        refine .inr (.inr ⟨fun v member => ?_, fun i v found used => ?_, fun budget => ?_⟩)
        · rw [Bool.not_eq_true, List.any_eq_false] at nonempty
          simpa using nonempty v member
        · rw [Bool.not_eq_true, List.any_eq_false] at bounded
          have here := bounded (v, i) (List.mem_zipIdx_iff_getElem?.mpr found)
          simpa [used] using here
        · unfold Model.order searchNodes
          generalize search equations _ _ [] _ = result
          obtain ⟨outcome, left⟩ := result
          cases outcome <;> rfl

theorem Model.getElem?_of_isUsed {m : Model} {equations : List Equation}
    (succeeded : equationsOf m.index m.constraints = .ok equations) {i : Nat} (used : isUsed equations i = true) :
    ∃ v, m.vars[i]? = some v := by
  obtain ⟨name, known⟩ := exists_name_of_isUsed succeeded used
  obtain ⟨v, found, _⟩ := Option.map_eq_some_iff.mp (Model.index_eq_some_iff.mp known).1
  exact ⟨v, found⟩

section
variable {m : Model} {equations : List Equation}

theorem Model.rangeAt_eq {i : Nat} {v : Var} (found : m.vars[i]? = some v) :
    rangeAt (m.vars.map Var.range) i = v.range := by
  simp [rangeAt, found]

/-- The search of a model tells about all solutions of its equations. -/
theorem Model.search_tells_all (succeeded : equationsOf m.index m.constraints = .ok equations) (nodes : Nat) :
    SearchTells equations (m.vars.map Var.range) (m.order equations) []
      (search equations (m.vars.map Var.range) (m.order equations) [] nodes) := by
  refine search_tells (reduced_of_equationsOf succeeded) _ [] nodes ?_ ?_ ?_
  · exact List.nodup_range.filter _
  · intro i member
    exact (List.mem_filter.mp member).2
  · intro i used outside
    obtain ⟨v, found⟩ := Model.getElem?_of_isUsed succeeded used
    have inside : i < m.vars.length := (List.getElem?_eq_some_iff.mp found).1
    exact absurd (List.mem_filter.mpr ⟨List.mem_range.mpr inside, used⟩) outside

/-- A solution of a model solves its equations. -/
theorem Model.Solution.solves {x : Nat → Int} {v : String → Int} (solution : m.Solution x v)
    (succeeded : equationsOf m.index m.constraints = .ok equations)
    (bounded : ∀ (i : Nat) (v : Var), m.vars[i]? = some v → isUsed equations i → v.isBounded = true) :
    Solves equations (m.vars.map Var.range) x := by
  refine ⟨(holds_of_equationsOf succeeded (Model.reads_iff.mpr solution.denoted)).mpr solution.holds, ?_⟩
  intro i used
  obtain ⟨var, found⟩ := Model.getElem?_of_isUsed succeeded used
  rw [Model.rangeAt_eq found, Var.range_contains_iff (bounded i var found used)]
  exact solution.admitted i var found

theorem Model.verdict_assignment {choice : Choice} {i : Nat} {v : Var} (found : m.vars[i]? = some v) :
    (m.verdict (.found choice)).assignment i = ((choice.lookup i).getD v.range.lo).toInt := by
  simp [Model.verdict, Result.assignment, found]

theorem Model.mem_order_iff (succeeded : equationsOf m.index m.constraints = .ok equations) {i : Nat} :
    i ∈ m.order equations ↔ isUsed equations i = true := by
  rw [Model.order, List.mem_filter, List.mem_range, and_iff_right_iff_imp]
  intro used
  obtain ⟨v, found⟩ := Model.getElem?_of_isUsed succeeded used
  exact (List.getElem?_eq_some_iff.mp found).1

/-- The search goes through the constrained variables. -/
theorem Model.constrained_iff (succeeded : equationsOf m.index m.constraints = .ok equations) {i : Nat} :
    m.Constrained i ↔ i ∈ m.order equations := by
  rw [Model.mem_order_iff succeeded]
  constructor
  · rintro ⟨name, last, remains⟩
    exact (isUsed_of_equationsOf succeeded (Model.index_eq_some_iff_eq last)).mpr remains
  · intro used
    obtain ⟨name, known⟩ := exists_name_of_isUsed succeeded used
    have last := Model.index_eq_some_iff.mp known
    exact ⟨name, last, (isUsed_of_equationsOf succeeded (Model.index_eq_some_iff_eq last)).mp used⟩

/-- A choice that the search finds becomes a solution: unused variables get a value within their
    bounds, and no equation looks at them. -/
theorem Model.verdict_solution (succeeded : equationsOf m.index m.constraints = .ok equations)
    (nonempty : ∀ v ∈ m.vars, v.isEmpty = false)
    (bounded : ∀ (i : Nat) (v : Var), m.vars[i]? = some v → isUsed equations i → v.isBounded = true)
    {out : Choice} {left : Nat}
    (found : SearchTells equations (m.vars.map Var.range) (m.order equations) [] (.found out, left))
    {v : String → Int} (denotes : m.Denotes (m.verdict (.found out)).assignment v) :
    m.Solution (m.verdict (.found out)).assignment v := by
  obtain ⟨holds, others, inRange, _⟩ := found
  refine ⟨fun i var declared => ?_, denotes, ?_⟩
  · rw [Model.verdict_assignment declared]
    by_cases used : isUsed equations i = true
    · obtain ⟨w, chosen, contains⟩ := inRange i ((Model.mem_order_iff succeeded).mpr used)
      rw [Model.rangeAt_eq declared, Var.range_contains_iff (bounded i var declared used)] at contains
      rw [chosen, Option.getD_some]
      exact contains
    · have unchosen := others i (fun member => used ((Model.mem_order_iff succeeded).mp member))
      rw [unchosen, List.lookup_nil, Option.getD_none]
      exact Var.admits_range_lo (nonempty var (List.mem_of_getElem? declared))
  · refine (holds_of_equationsOf succeeded (Model.reads_iff.mpr denotes)).mp fun e member => ?_
    have solved := holds e member
    unfold Equation.Holds at solved ⊢
    rw [← solved]
    refine total_congr fun t inside => ?_
    have used : isUsed equations t.1 = true := isUsed_iff.mpr ⟨e, member, List.mem_map_of_mem inside⟩
    obtain ⟨var, declared⟩ := Model.getElem?_of_isUsed succeeded used
    obtain ⟨w, chosen, _⟩ := inRange t.1 ((Model.mem_order_iff succeeded).mpr used)
    rw [Model.verdict_assignment declared, Choice.value, chosen, Option.getD_some, Option.getD_some]

/-- In ascending order, two assignments are equal or differ first where the smaller one is smaller. -/
theorem LexLe.equal_or_first_difference {y x : Nat → Int} {order : List Nat} (sorted : order.Pairwise (· < ·))
    (le : LexLe y x order) :
    (∀ i ∈ order, y i = x i) ∨ ∃ i ∈ order, y i < x i ∧ ∀ j ∈ order, j < i → y j = x j := by
  induction order with
  | nil => exact .inl (by simp)
  | cons i rest ih =>
    obtain ⟨first, restSorted⟩ := List.pairwise_cons.mp sorted
    rcases le with less | ⟨same, restLe⟩
    · refine .inr ⟨i, by simp, less, fun j member before => ?_⟩
      rcases List.mem_cons.mp member with rfl | later
      · omega
      · have after := first j later
        omega
    · rcases ih restSorted restLe with equal | ⟨k, member, less, before⟩
      · exact .inl fun j inside => (List.mem_cons.mp inside).elim (fun here => here ▸ same) (equal j)
      · refine .inr ⟨k, List.mem_cons_of_mem _ member, less, fun j inside earlier => ?_⟩
        exact (List.mem_cons.mp inside).elim (fun here => here ▸ same) fun later => before j later earlier

/-- No solution comes before the witness in the order of the constrained variables. -/
theorem Model.verdict_least (succeeded : equationsOf m.index m.constraints = .ok equations)
    (bounded : ∀ (i : Nat) (v : Var), m.vars[i]? = some v → isUsed equations i → v.isBounded = true)
    {out : Choice} {left : Nat}
    (found : SearchTells equations (m.vars.map Var.range) (m.order equations) [] (.found out, left))
    {y : Nat → Int} {u : String → Int} (solution : m.Solution y u) :
    (∀ i, m.Constrained i → (m.verdict (.found out)).assignment i = y i) ∨
      ∃ i, m.Constrained i ∧ (m.verdict (.found out)).assignment i < y i ∧
        ∀ j, j < i → m.Constrained j → (m.verdict (.found out)).assignment j = y j := by
  obtain ⟨_, _, inRange, first⟩ := found
  have same : ∀ i ∈ m.order equations, (m.verdict (.found out)).assignment i = out.value i := by
    intro i member
    obtain ⟨var, declared⟩ := Model.getElem?_of_isUsed succeeded ((Model.mem_order_iff succeeded).mp member)
    obtain ⟨w, chosen, _⟩ := inRange i member
    rw [Model.verdict_assignment declared, Choice.value, chosen, Option.getD_some, Option.getD_some]
  have sorted : (m.order equations).Pairwise (· < ·) := List.pairwise_lt_range.filter _
  have le := first y (solution.solves succeeded bounded) (fun _ _ chosen => by cases chosen)
  simp only [Model.constrained_iff succeeded]
  rcases le.equal_or_first_difference sorted with equal | ⟨i, member, less, before⟩
  · exact .inl fun i member => (same i member).trans (equal i member)
  · refine .inr ⟨i, member, (same i member).trans_lt less, fun j earlier inside => ?_⟩
    exact (same j inside).trans (before j inside earlier)

end

/-- What each verdict on a model claims. -/
def SolveTells (m : Model) (r : Result) : Prop :=
  match r.status with
  | .infeasible => ∀ x v, ¬ m.Solution x v
  | .feasible =>
    r.witness.map (·.1) = m.vars.map Var.name ∧ (∃ v, m.Solution r.assignment v) ∧
      (∀ v, m.Denotes r.assignment v → m.Solution r.assignment v) ∧
      ∀ y u, m.Solution y u →
        (∀ i, m.Constrained i → r.assignment i = y i) ∨
          ∃ i, m.Constrained i ∧ r.assignment i < y i ∧ ∀ j, j < i → m.Constrained j → r.assignment j = y j
  | .unknown => True

theorem solve_tells (m : Model) (budget : Int) : SolveTells m (solve m budget) := by
  rcases solve_cases m with ⟨s, failed, answer⟩ | ⟨equations, succeeded, rest⟩
  · rcases equationsOf_error failed with ⟨rfl, _⟩ | ⟨rfl, c, member, refused⟩
    · rw [answer]
      trivial
    · rw [answer]
      intro x v solution
      exact not_holds_of_normalize refused (Model.reads_iff.mpr solution.denoted) (solution.holds c member)
  · rcases rest with ⟨⟨var, member, empty⟩, answer⟩ | ⟨_, answer⟩ | ⟨nonempty, bounded, answer⟩
    · rw [answer]
      intro x v solution
      obtain ⟨i, declared⟩ := List.mem_iff_getElem?.mp member
      exact Var.not_admits_of_isEmpty empty (x i) (solution.admitted i var declared)
    · rw [answer]
      trivial
    · rw [answer]
      have tells := Model.search_tells_all succeeded (searchNodes budget)
      generalize search equations _ _ [] (searchNodes budget) = result at tells
      match result with
      | (.found out, left) =>
        have solves := fun v denotes => Model.verdict_solution (v := v) succeeded nonempty bounded tells denotes
        obtain ⟨v, denotes⟩ := Model.exists_denotes m (m.verdict (.found out)).assignment
        refine ⟨?_, ⟨v, solves v denotes⟩, solves,
          fun y u solution => Model.verdict_least succeeded bounded tells solution⟩
        have names : m.vars.map Var.name = (m.vars.zipIdx.map Prod.fst).map Var.name := by rw [List.zipIdx_map_fst]
        rw [names, Model.verdict, List.map_map, List.map_map]
        rfl
      | (.exhausted, left) =>
        intro x v solution
        exact tells x (solution.solves succeeded bounded) (fun _ _ chosen => by cases chosen)
      | (.cut, left) => trivial

/-- A model that is called infeasible has no solution over the integers, whatever undeclared names stand
    for. -/
theorem solve_infeasible_no_solution (m : Model) (budget : Int)
    (infeasible : (solve m budget).status = .infeasible) :
    ¬ ∃ (x : Nat → Int) (v : String → Int), m.Solution x v := by
  rintro ⟨x, v, solution⟩
  have tells := solve_tells m budget
  rw [SolveTells, infeasible] at tells
  exact tells x v solution

/-- Minus a word is the least word: only an integer beyond the greatest word would do, and the wrapped
    quotient is no solution. -/
def beyondWords : Model where
  label := "obj"
  vars := [⟨"x", some Int64.minValue, some Int64.maxValue⟩]
  objective := "x"
  constraints := [⟨"eqn0", ⟨[⟨-1, "x"⟩], 0⟩, ⟨[], Int64.minValue⟩⟩]

theorem beyondWords_no_solution :
    (solve beyondWords 5).status = .infeasible ∧ ¬ ∃ (x : Nat → Int) (v : String → Int), beyondWords.Solution x v := by
  have infeasible : (solve beyondWords 5).status = .infeasible := by decide +kernel
  exact ⟨infeasible, solve_infeasible_no_solution beyondWords 5 infeasible⟩

/-- The witness of a feasible model names the declared variables in order and solves the model; among
    all solutions it is the lexicographically least on the constrained variables. -/
theorem solve_feasible_least (m : Model) (budget : Int) (feasible : (solve m budget).status = .feasible) :
    (solve m budget).witness.map (·.1) = m.vars.map Var.name ∧
      (∃ v, m.Solution (solve m budget).assignment v) ∧
      (∀ v, m.Denotes (solve m budget).assignment v → m.Solution (solve m budget).assignment v) ∧
      ∀ y u, m.Solution y u →
        (∀ i, m.Constrained i → (solve m budget).assignment i = y i) ∨
          ∃ i, m.Constrained i ∧ (solve m budget).assignment i < y i ∧
            ∀ j, j < i → m.Constrained j → (solve m budget).assignment j = y j := by
  have tells := solve_tells m budget
  rw [SolveTells, feasible] at tells
  exact tells

/-- `2 * x + y = 5` up to 3, beside a variable that must be negative and is not constrained. -/
def twoSolutions : Model where
  label := "obj"
  vars := [⟨"x", some 0, some 3⟩, ⟨"free", none, some (-5)⟩, ⟨"y", some 0, some 3⟩]
  objective := "x"
  constraints := [⟨"eqn0", ⟨[⟨2, "x"⟩, ⟨1, "y"⟩, ⟨1, "free"⟩], 0⟩, ⟨[⟨1, "free"⟩], 5⟩⟩]

theorem twoSolutions_least :
    solve twoSolutions 100 = ⟨.feasible, [("x", 1), ("free", -5), ("y", 3)]⟩ ∧
      ∀ y u, twoSolutions.Solution y u →
        (∀ i, twoSolutions.Constrained i → (solve twoSolutions 100).assignment i = y i) ∨
          ∃ i, twoSolutions.Constrained i ∧ (solve twoSolutions 100).assignment i < y i ∧
            ∀ j, j < i → twoSolutions.Constrained j → (solve twoSolutions 100).assignment j = y j := by
  have answer : solve twoSolutions 100 = ⟨.feasible, [("x", 1), ("free", -5), ("y", 3)]⟩ := by decide +kernel
  exact ⟨answer, (solve_feasible_least twoSolutions 100 (by rw [answer])).2.2.2⟩

end LoopConflict.Linear
