import LoopConflict.Linear.Search
import LoopConflict.Proofs.Linear.Normalize
import Mathlib.Algebra.Order.BigOperators.Group.List
import Mathlib.Tactic.Linarith

/-!
What the bounded search says about the integer solutions of equations. Pruning and forced values lose
no solution, although the sums they look at are only known while they are words. So a search that is
exhausted refutes every solution, one that succeeds finds the first solution in the order of the
variables and their values, and one that is cut has spent its budget (`search_tells`).
-/
namespace LoopConflict.Linear

/-- The integer lies in the range. -/
def Range.Contains (r : Range) (n : Int) : Prop :=
  r.lo.toInt ≤ n ∧ n ≤ r.hi.toInt

/-- The range of the variable at a position. -/
def rangeAt (ranges : List Range) (i : Nat) : Range :=
  (ranges[i]?).getD default

/-- The assignment of a choice; what is not chosen counts as zero. -/
def Choice.value (choice : Choice) (i : Nat) : Int :=
  ((choice.lookup i).getD 0).toInt

/-- The assignment gives every chosen variable its value. -/
def Choice.Agrees (choice : Choice) (x : Nat → Int) : Prop :=
  ∀ i w, choice.lookup i = some w → x i = w.toInt

/-- The assignment solves the equations, and their variables stay within their ranges. -/
structure Solves (equations : List Equation) (ranges : List Range) (x : Nat → Int) : Prop where
  holds : ∀ e ∈ equations, e.Holds x
  inRange : ∀ i, isUsed equations i → (rangeAt ranges i).Contains (x i)

/-- `y` comes before `x` or is equal to it, where the variables are compared in the given order. -/
def LexLe (y x : Nat → Int) : List Nat → Prop
  | [] => True
  | i :: rest => y i < x i ∨ y i = x i ∧ LexLe y x rest

theorem isUsed_iff {equations : List Equation} {i : Nat} :
    isUsed equations i = true ↔ ∃ e ∈ equations, i ∈ e.terms.map (·.1) := by
  simp [isUsed]

theorem Choice.agrees_cons {choice : Choice} {x : Nat → Int} (agrees : choice.Agrees x) {i : Nat} {w : Int64}
    (same : x i = w.toInt) : Choice.Agrees ((i, w) :: choice) x := by
  intro j u found
  rw [List.lookup_cons] at found
  by_cases here : j = i
  · subst here
    simp only [beq_self_eq_true, Option.some.injEq] at found
    rw [same, found]
  · have other : (j == i) = false := by simpa using here
    rw [other] at found
    exact agrees j u found

/-! ### Sums that are known while they are words -/

theorem toInt_of_plus {sum : Option Int64} {a x s : Int64} (known : plus sum a x = some s) :
    ∃ r, sum = some r ∧ s.toInt = r.toInt + a.toInt * x.toInt := by
  simp only [plus, Option.bind_eq_bind, Option.bind_eq_some_iff] at known
  obtain ⟨r, before, p, product, added⟩ := known
  refine ⟨r, before, ?_⟩
  rw [Word.add?_eq_some_iff.mp added, Word.mul?_eq_some_iff.mp product]

/-- A sum that stays a word is exact. -/
theorem toInt_of_foldl_plus {pick : Nat × Int64 → Int64} {terms : List (Nat × Int64)} {init : Option Int64}
    {s : Int64} (known : terms.foldl (fun sum t => plus sum t.2 (pick t)) init = some s) :
    ∃ r, init = some r ∧ s.toInt = r.toInt + (terms.map fun t => t.2.toInt * (pick t).toInt).sum := by
  induction terms generalizing init with
  | nil => exact ⟨s, known, by simp⟩
  | cons t rest ih =>
    obtain ⟨q, step, tail⟩ := ih known
    obtain ⟨r, before, head⟩ := toInt_of_plus step
    refine ⟨r, before, ?_⟩
    rw [tail, head, List.map_cons, List.sum_cons]
    ring

/-- The sum of the terms with picked values, if it stays a word all along. -/
private theorem toInt_of_foldl_plus_zero {pick : Nat × Int64 → Int64} {terms : List (Nat × Int64)} {s : Int64}
    (known : terms.foldl (fun sum t => plus sum t.2 (pick t)) (some 0) = some s) :
    s.toInt = (terms.map fun t => t.2.toInt * (pick t).toInt).sum := by
  obtain ⟨r, zero, exact⟩ := toInt_of_foldl_plus known
  cases zero
  simpa using exact

/-! ### Pruning -/

theorem Choice.rangeOf_contains {choice : Choice} {ranges : List Range} {x : Nat → Int} {i : Nat}
    (agrees : choice.Agrees x) (inRange : (rangeAt ranges i).Contains (x i)) :
    (choice.rangeOf ranges i).Contains (x i) := by
  unfold Choice.rangeOf
  cases chosen : choice.lookup i with
  | none => exact inRange
  | some w => exact ⟨(agrees i w chosen).ge, (agrees i w chosen).le⟩

/-- A multiple of a value in a range lies between the multiples of its ends, which change places under a
    negative coefficient. -/
theorem Range.Contains.mul_bounds {r : Range} {n : Int} (contains : r.Contains n) (a : Int64) :
    a.toInt * (if a < 0 then r.hi else r.lo).toInt ≤ a.toInt * n ∧
      a.toInt * n ≤ a.toInt * (if a < 0 then r.lo else r.hi).toInt := by
  obtain ⟨low, high⟩ := contains
  by_cases negative : a < 0
  · have sign : a.toInt < 0 := by simpa using Int64.lt_iff_toInt_lt.mp negative
    simp only [negative, ↓reduceIte]
    exact ⟨mul_le_mul_of_nonpos_left high sign.le, mul_le_mul_of_nonpos_left low sign.le⟩
  · have sign : 0 ≤ a.toInt := by simpa [Int64.lt_iff_toInt_lt] using negative
    simp only [negative, ↓reduceIte]
    exact ⟨mul_le_mul_of_nonneg_left low sign, mul_le_mul_of_nonneg_left high sign⟩

section
variable {e : Equation} {choice : Choice} {ranges : List Range} {x : Nat → Int}

theorem Equation.least_le {s : Int64} (known : e.least choice ranges = some s)
    (contained : ∀ t ∈ e.terms, (choice.rangeOf ranges t.1).Contains (x t.1)) :
    s.toInt ≤ total x e.terms := by
  rw [toInt_of_foldl_plus_zero known]
  refine List.sum_le_sum fun t member => ?_
  exact ((contained t member).mul_bounds t.2).1

theorem Equation.le_greatest {s : Int64} (known : e.greatest choice ranges = some s)
    (contained : ∀ t ∈ e.terms, (choice.rangeOf ranges t.1).Contains (x t.1)) :
    total x e.terms ≤ s.toInt := by
  rw [toInt_of_foldl_plus_zero known]
  refine List.sum_le_sum fun t member => ?_
  exact ((contained t member).mul_bounds t.2).2

/-- An equation that a compatible assignment solves is not pruned. -/
theorem Equation.isPossible_of_holds (holds : e.Holds x) (agrees : choice.Agrees x)
    (inRange : ∀ t ∈ e.terms, (rangeAt ranges t.1).Contains (x t.1)) :
    e.isPossible choice ranges = true := by
  have contained : ∀ t ∈ e.terms, (choice.rangeOf ranges t.1).Contains (x t.1) :=
    fun t member => Choice.rangeOf_contains agrees (inRange t member)
  unfold Equation.Holds at holds
  simp only [Equation.isPossible, Bool.and_eq_true, Bool.not_eq_true']
  constructor
  · cases known : e.least choice ranges with
    | none => rfl
    | some s =>
      have below := e.least_le known contained
      simp only [Option.any_some, decide_eq_false_iff_not, Int64.lt_iff_toInt_lt]
      omega
  · cases known : e.greatest choice ranges with
    | none => rfl
    | some s =>
      have above := e.le_greatest known contained
      simp only [Option.any_some, decide_eq_false_iff_not, Int64.lt_iff_toInt_lt]
      omega

theorem Equation.holds_iff : e.holds choice = true ↔ e.Holds choice.value := by
  have sum : ∀ terms : List (Nat × Int64), total choice.value terms =
      terms.foldr (fun t sum => t.2.toInt * ((choice.lookup t.1).getD 0).toInt + sum) 0 := by
    intro terms
    induction terms with
    | nil => rfl
    | cons t rest ih => rw [total_cons, ih, List.foldr_cons, Choice.value]
  rw [Equation.holds, Equation.Holds, sum, beq_iff_eq]

/-! ### Forced values -/

/-- A variable that occurs once contributes its coefficient; the others make up the rest. -/
theorem total_eq_lookup_add {terms : List (Nat × Int64)} (distinct : (terms.map (·.1)).Nodup) {i : Nat}
    {a : Int64} (found : terms.lookup i = some a) (x : Nat → Int) :
    total x terms = a.toInt * x i + total x (terms.filter (·.1 ≠ i)) := by
  induction terms with
  | nil => simp at found
  | cons t rest ih =>
    obtain ⟨j, b⟩ := t
    obtain ⟨fresh, restDistinct⟩ := List.nodup_cons.mp distinct
    by_cases here : i = j
    · subst here
      simp only [List.lookup_cons, beq_self_eq_true, Option.some.injEq] at found
      have others : rest.filter (·.1 ≠ i) = rest := by
        refine List.filter_eq_self.mpr fun u member => ?_
        have different : u.1 ≠ i := fun same => fresh (List.mem_map.mpr ⟨u, member, same⟩)
        simpa using different
      rw [List.filter_cons_of_neg (by simp), others, total_cons, found]
    · have other : (i == j) = false := by simpa using here
      rw [List.lookup_cons, other] at found
      rw [List.filter_cons_of_pos (by simpa using Ne.symm here), total_cons, total_cons, ih restDistinct found]
      ring

theorem mem_of_lookup {terms : List (Nat × Int64)} {i : Nat} {a : Int64} (found : terms.lookup i = some a) :
    (i, a) ∈ terms := by
  obtain ⟨before, after, split, _⟩ := List.lookup_eq_some_iff.mp found
  simp [split]

/-- Unless an equation leaves the variable free, its coefficient times the variable is a known word. -/
theorem Equation.forcing_cases (reduced : e.Reduced) (holds : e.Holds x) (agrees : choice.Agrees x) (i : Nat) :
    e.forcing choice i = .free ∨
      ∃ a d : Int64, a ≠ 0 ∧ a.toInt * x i = d.toInt ∧
        e.forcing choice i = if d % a = 0 then .value (d / a) else .impossible := by
  unfold Equation.forcing
  cases found : e.terms.lookup i with
  | none => exact .inl rfl
  | some a =>
    dsimp only
    split
    · rename_i closed
      cases known : ((e.terms.filter (·.1 ≠ i)).foldl
          (fun sum t => plus sum t.2 ((choice.lookup t.1).getD 0)) (some 0)).bind (Word.sub? e.rhs) with
      | none => exact .inl rfl
      | some d =>
        refine .inr ⟨a, d, reduced.nonzero _ (mem_of_lookup found), ?_, rfl⟩
        obtain ⟨rest, sum, difference⟩ := Option.bind_eq_some_iff.mp known
        have others : total x (e.terms.filter (·.1 ≠ i)) = rest.toInt := by
          rw [toInt_of_foldl_plus_zero sum]
          refine congrArg List.sum (List.map_congr_left fun t member => ?_)
          obtain ⟨w, chosen⟩ := Option.isSome_iff_exists.mp (List.all_eq_true.mp closed t member)
          rw [agrees _ _ chosen, chosen, Option.getD_some]
        have split := total_eq_lookup_add reduced.distinct found x
        rw [Equation.Holds, split, others] at holds
        rw [Word.toInt_of_sub? difference]
        omega
    · exact .inl rfl

/-- A forced value is the variable's value in every compatible solution that is a word. -/
theorem Equation.forcing_sound (reduced : e.Reduced) (holds : e.Holds x) (agrees : choice.Agrees x) {i : Nat}
    (small : x i ≤ 9223372036854775807) :
    e.forcing choice i = .free ∨ ∃ w, e.forcing choice i = .value w ∧ x i = w.toInt := by
  rcases e.forcing_cases reduced holds agrees i with free | ⟨a, d, nonzero, product, forcing⟩
  · exact .inl free
  · have divides : d % a = 0 := by
      rw [Word.mod_eq_zero_iff_dvd]
      exact ⟨x i, product.symm⟩
    rw [if_pos divides] at forcing
    exact .inr ⟨d / a, forcing, (Word.toInt_div_of_mul_eq nonzero product small).symm⟩

end

section
variable {equations : List Equation} {ranges : List Range} {choice : Choice} {x : Nat → Int}

theorem forced_sound (reduced : ∀ e ∈ equations, e.Reduced) (holds : ∀ e ∈ equations, e.Holds x)
    (agrees : choice.Agrees x) {i : Nat} (small : x i ≤ 9223372036854775807) :
    forced equations choice i = .free ∨ ∃ w, forced equations choice i = .value w ∧ x i = w.toInt := by
  induction equations with
  | nil => exact .inl rfl
  | cons e rest ih =>
    rcases e.forcing_sound (reduced e (by simp)) (holds e (by simp)) agrees small with free | ⟨w, value, same⟩
    · rw [forced, free]
      exact ih (fun e member => reduced e (List.mem_cons_of_mem _ member))
        fun e member => holds e (List.mem_cons_of_mem _ member)
    · exact .inr ⟨w, by rw [forced, value], same⟩

/-- The values to try for a used variable include its value in every compatible solution. -/
theorem candidates?_of_solves (reduced : ∀ e ∈ equations, e.Reduced) (solves : Solves equations ranges x)
    (agrees : choice.Agrees x) {i : Nat} (used : isUsed equations i) :
    ∃ r, candidates? equations ranges choice i = some r ∧ r.Contains (x i) := by
  have contained := solves.inRange i used
  obtain ⟨low, high⟩ := contained
  have top := Word.toInt_bounds (rangeAt ranges i).hi
  unfold candidates?
  rcases forced_sound reduced solves.holds agrees (i := i) (by omega) with free | ⟨w, value, same⟩
  · have ordered : (rangeAt ranges i).lo ≤ (rangeAt ranges i).hi := by
      rw [Int64.le_iff_toInt_le]
      omega
    refine ⟨rangeAt ranges i, ?_, low, high⟩
    rw [free]
    exact if_pos ordered
  · have inside : ((rangeAt ranges i).lo ≤ w && w ≤ (rangeAt ranges i).hi) = true := by
      simp only [Bool.and_eq_true, decide_eq_true_eq, Int64.le_iff_toInt_le]
      omega
    refine ⟨⟨w, w⟩, ?_, same.ge, same.le⟩
    rw [value]
    exact if_pos inside

/-- There is at least one value to try, and all of them lie in the variable's range. -/
theorem candidates?_subset {i : Nat} {r : Range} (found : candidates? equations ranges choice i = some r) :
    r.lo.toInt ≤ r.hi.toInt ∧ ∀ n, r.Contains n → (rangeAt ranges i).Contains n := by
  unfold candidates? at found
  cases forcing : forced equations choice i with
  | free =>
    rw [forcing] at found
    simp only [Option.ite_none_right_eq_some, Option.some.injEq, Int64.le_iff_toInt_le] at found
    obtain ⟨ordered, rfl⟩ := found
    exact ⟨ordered, fun n inside => inside⟩
  | value w =>
    rw [forcing] at found
    simp only [Option.ite_none_right_eq_some, Option.some.injEq, Bool.and_eq_true, decide_eq_true_eq,
      Int64.le_iff_toInt_le] at found
    obtain ⟨⟨low, high⟩, rfl⟩ := found
    exact ⟨le_rfl, fun n inside => ⟨low.trans inside.1, inside.2.trans high⟩⟩
  | impossible =>
    rw [forcing] at found
    simp at found

end

/-! ### Trying values in turn -/

/-- What a run of `tryValues` says about its calls: a success comes after failures at all smaller values,
    and the values are exhausted only if each of them is. -/
def TriesTell (child : Int64 → Nat → Outcome × Nat) (x : Int64) (above : Nat) : Outcome × Nat → Prop
  | (.found choice, left) =>
    ∃ y : Int64, x.toInt ≤ y.toInt ∧ y.toInt ≤ x.toInt + above ∧ (∃ budget, child y budget = (.found choice, left)) ∧
      ∀ z : Int64, x.toInt ≤ z.toInt → z.toInt < y.toInt → ∃ budget left, child z budget = (.exhausted, left)
  | (.exhausted, _) =>
    ∀ z : Int64, x.toInt ≤ z.toInt → z.toInt ≤ x.toInt + above → ∃ budget left, child z budget = (.exhausted, left)
  | (.cut, left) => left = 0

/-- A failure at the first value is added to what the later calls tell. -/
private theorem TriesTell.cons {child : Int64 → Nat → Outcome × Nat} {x : Int64} {above budget left : Nat}
    {result : Outcome × Nat} (fits : Word.Fits (x.toInt + 1))
    (first : child x budget = (.exhausted, left)) (later : TriesTell child (x + 1) above result) :
    TriesTell child x (above + 1) result := by
  have next := Word.toInt_add_one fits
  have head : ∀ z : Int64, z.toInt = x.toInt → ∃ budget left, child z budget = (.exhausted, left) := by
    intro z same
    rw [Int64.toInt_inj.mp same]
    exact ⟨budget, left, first⟩
  match result with
  | (.found choice, left) =>
    obtain ⟨y, low, high, success, failures⟩ := later
    refine ⟨y, by omega, by push_cast; omega, success, fun z above below => ?_⟩
    rcases eq_or_lt_of_le above with same | after
    · exact head z same.symm
    · exact failures z (by omega) below
  | (.exhausted, left) =>
    intro z low high
    rcases eq_or_lt_of_le low with same | after
    · exact head z same.symm
    · exact later z (by omega) (by push_cast at high; omega)
  | (.cut, left) => exact later

/-- The values above `x` are tried until one succeeds; no call is given up unless the budget is spent. -/
theorem tryValues_tells {child : Int64 → Nat → Outcome × Nat}
    (final : ∀ x budget, (child x budget).1 = .cut → (child x budget).2 = 0) (above : Nat) :
    ∀ (x : Int64) (budget : Nat), x.toInt + above ≤ 9223372036854775807 →
      TriesTell child x above (tryValues child x false above budget) := by
  induction above with
  | zero =>
    intro x budget _
    rw [tryValues.eq_def]
    match result : child x budget with
    | (.found choice, left) =>
      exact ⟨x, le_rfl, by simp, ⟨budget, result⟩, fun z low high => by omega⟩
    | (.exhausted, left) =>
      by_cases spent : left = 0
      · simp [spent, TriesTell]
      · simp only [spent, ↓reduceIte, reduceCtorEq, decide_false, Bool.or_false, Bool.false_eq_true, TriesTell]
        intro z low high
        have same : z = x := Int64.toInt_inj.mp (by simp at high; omega)
        exact ⟨budget, left, same ▸ result⟩
    | (.cut, left) =>
      have spent : left = 0 := by simpa [result] using final x budget
      simp [spent, TriesTell]
  | succ above ih =>
    intro x budget fits
    rw [tryValues.eq_def]
    match result : child x budget with
    | (.found choice, left) =>
      exact ⟨x, le_rfl, by omega, ⟨budget, result⟩, fun z low high => by omega⟩
    | (.exhausted, left) =>
      by_cases spent : left = 0
      · simp [spent, TriesTell]
      · simp only [spent, ↓reduceIte, reduceCtorEq, decide_false, Bool.or_false]
        have range := Word.toInt_bounds x
        have room : Word.Fits (x.toInt + 1) := ⟨by omega, by push_cast at fits; omega⟩
        refine TriesTell.cons room result (ih (x + 1) left ?_)
        rw [Word.toInt_add_one room]
        push_cast at fits
        omega
    | (.cut, left) =>
      have spent : left = 0 := by simpa [result] using final x budget
      simp [spent, TriesTell]

/-! ### The search -/

/-- What the outcome of a search below a choice says: a found choice extends the given one to the
    first compatible solution, an exhausted search has none to find, and a cut spends the budget. -/
def SearchTells (equations : List Equation) (ranges : List Range) (order : List Nat) (choice : Choice) :
    Outcome × Nat → Prop
  | (.found out, _) =>
    (∀ e ∈ equations, e.Holds out.value) ∧ (∀ i, i ∉ order → out.lookup i = choice.lookup i) ∧
      (∀ i ∈ order, ∃ w, out.lookup i = some w ∧ (rangeAt ranges i).Contains w.toInt) ∧
      ∀ x, Solves equations ranges x → choice.Agrees x → LexLe out.value x order
  | (.exhausted, _) => ∀ x, Solves equations ranges x → ¬ choice.Agrees x
  | (.cut, left) => left = 0

section
variable {equations : List Equation} {ranges : List Range}

theorem Solves.all_isPossible {choice : Choice} {x : Nat → Int} (solves : Solves equations ranges x)
    (agrees : choice.Agrees x) : equations.all (·.isPossible choice ranges) = true := by
  refine List.all_eq_true.mpr fun e member => e.isPossible_of_holds (solves.holds e member) agrees ?_
  intro t inside
  exact solves.inRange t.1 (isUsed_iff.mpr ⟨e, member, List.mem_map_of_mem inside⟩)

/-- A choice that covers all used variables has the values of every assignment that it agrees with. -/
theorem Equation.Holds.of_agrees {choice : Choice} {x : Nat → Int} {e : Equation} (holds : e.Holds x)
    (agrees : choice.Agrees x) (complete : ∀ i ∈ e.terms.map (·.1), (choice.lookup i).isSome) :
    e.Holds choice.value := by
  unfold Equation.Holds at holds ⊢
  rw [← holds]
  refine total_congr fun t member => ?_
  obtain ⟨w, chosen⟩ := Option.isSome_iff_exists.mp (complete t.1 (List.mem_map_of_mem member))
  rw [agrees _ _ chosen, Choice.value, chosen, Option.getD_some]

theorem searchTells_leaf {choice : Choice} (left : Nat)
    (complete : ∀ i, isUsed equations i → (choice.lookup i).isSome) :
    SearchTells equations ranges [] choice (search equations ranges [] choice (left + 1)) := by
  rw [search]
  split
  · rename_i accepted
    simp only [Bool.and_eq_true, List.all_eq_true, Equation.holds_iff] at accepted
    exact ⟨accepted.2, fun _ _ => rfl, by simp, fun _ _ _ => trivial⟩
  · rename_i rejected
    intro x solves agrees
    refine rejected ?_
    rw [Bool.and_eq_true]
    refine ⟨solves.all_isPossible agrees, List.all_eq_true.mpr fun e member => Equation.holds_iff.mpr ?_⟩
    exact (solves.holds e member).of_agrees agrees fun i inside => complete i (isUsed_iff.mpr ⟨e, member, inside⟩)

/-- An integer between two words is a word. -/
theorem Range.Contains.exists_word {r : Range} {n : Int} (contains : r.Contains n) : ∃ w : Int64, w.toInt = n := by
  have low := Word.toInt_bounds r.lo
  have high := Word.toInt_bounds r.hi
  obtain ⟨above, below⟩ := contains
  exact ⟨Int64.ofInt n, Int64.toInt_ofInt_of_le (by omega) (by omega)⟩

/-- If the values tried for a variable include its value in every compatible solution, then what the
    trials tell together is what the search at the variable tells. -/
theorem searchTells_branch {choice : Choice} {i : Nat} {rest : List Nat} {r : Range} {above : Nat}
    {child : Int64 → Nat → Outcome × Nat} {result : Outcome × Nat} (fresh : i ∉ rest)
    (children : ∀ w budget, SearchTells equations ranges rest ((i, w) :: choice) (child w budget))
    (covers : ∀ x, Solves equations ranges x → choice.Agrees x → r.Contains (x i))
    (subset : ∀ n, r.Contains n → (rangeAt ranges i).Contains n) (span : r.lo.toInt + above = r.hi.toInt)
    (tells : TriesTell child r.lo above result) : SearchTells equations ranges (i :: rest) choice result := by
  have refuted : ∀ (w : Int64) (budget left : Nat), child w budget = (.exhausted, left) →
      ∀ x, Solves equations ranges x → choice.Agrees x → x i ≠ w.toInt := by
    intro w budget left failed x solves agrees same
    have none_below := children w budget
    rw [failed] at none_below
    exact none_below x solves (Choice.agrees_cons agrees same)
  match result with
  | (.found out, left) =>
    obtain ⟨y, low, high, ⟨budget, success⟩, failures⟩ := tells
    have found := children y budget
    rw [success] at found
    obtain ⟨holds, others, inRange, first⟩ := found
    have here : out.lookup i = some y := by
      rw [others i fresh]
      simp
    refine ⟨holds, fun j outside => ?_, fun j inside => ?_, fun x solves agrees => ?_⟩
    · obtain ⟨different, later⟩ := List.ne_and_not_mem_of_not_mem_cons outside
      have other : (j == i) = false := by simpa using different
      rw [others j later, List.lookup_cons, other]
    · rcases List.mem_cons.mp inside with rfl | later
      · exact ⟨y, here, subset _ ⟨low, by omega⟩⟩
      · exact inRange j later
    · -- A solution with a smaller value at `i` would lie below a call that was exhausted.
      have contains := covers x solves agrees
      have value : out.value i = y.toInt := by rw [Choice.value, here, Option.getD_some]
      rw [LexLe, value]
      rcases lt_trichotomy y.toInt (x i) with before | same | after
      · exact .inl before
      · exact .inr ⟨same, first x solves (Choice.agrees_cons agrees same.symm)⟩
      · obtain ⟨w, word⟩ := contains.exists_word
        obtain ⟨budget, left, failed⟩ := failures w (word ▸ contains.1) (word ▸ after)
        exact absurd word.symm (refuted w budget left failed x solves agrees)
  | (.exhausted, left) =>
    intro x solves agrees
    have contains := covers x solves agrees
    obtain ⟨w, word⟩ := contains.exists_word
    obtain ⟨budget, left, failed⟩ := tells w (word ▸ contains.1) (by have := contains.2; omega)
    exact refuted w budget left failed x solves agrees word.symm
  | (.cut, left) => exact tells

/-- The search over the variables in `order` tells the truth about the solutions that agree with the
    choice, provided every used variable is chosen or still to come. -/
theorem search_tells (reduced : ∀ e ∈ equations, e.Reduced) (order : List Nat) :
    ∀ (choice : Choice) (budget : Nat), order.Nodup → (∀ i ∈ order, isUsed equations i) →
      (∀ i, isUsed equations i → i ∉ order → (choice.lookup i).isSome) →
      SearchTells equations ranges order choice (search equations ranges order choice budget) := by
  induction order with
  | nil =>
    intro choice budget _ _ complete
    cases budget with
    | zero =>
      rw [search]
      rfl
    | succ left => exact searchTells_leaf left fun i used => complete i used (by simp)
  | cons i rest ih =>
    intro choice budget distinct used complete
    obtain ⟨fresh, restDistinct⟩ := List.nodup_cons.mp distinct
    cases budget with
    | zero =>
      rw [search]
      rfl
    | succ left =>
      have children : ∀ w budget, SearchTells equations ranges rest ((i, w) :: choice)
          (search equations ranges rest ((i, w) :: choice) budget) := by
        intro w budget
        refine ih _ budget restDistinct (fun j later => used j (List.mem_cons_of_mem _ later)) fun j jUsed outside => ?_
        by_cases here : j = i
        · simp [here]
        · have other : (j == i) = false := by simpa using here
          rw [List.lookup_cons, other]
          exact complete j jUsed (List.not_mem_cons_of_ne_of_not_mem here outside)
      -- A forced value narrows the candidates without losing the value of any compatible solution.
      have covers : ∀ x, Solves equations ranges x → choice.Agrees x →
          ∃ r, candidates? equations ranges choice i = some r ∧ r.Contains (x i) :=
        fun x solves agrees => candidates?_of_solves reduced solves agrees (used i (by simp))
      rw [search]
      split
      · cases candidates : candidates? equations ranges choice i with
        | none =>
          intro x solves agrees
          obtain ⟨r, found, _⟩ := covers x solves agrees
          rw [candidates] at found
          cases found
        | some r =>
          obtain ⟨ordered, subset⟩ := candidates?_subset candidates
          have span : r.lo.toInt + (r.hi.toInt - r.lo.toInt).toNat = r.hi.toInt := by omega
          have top := Word.toInt_bounds r.hi
          refine searchTells_branch fresh children (fun x solves agrees => ?_) subset span
            (tryValues_tells (fun w budget cut => ?_) _ r.lo left (by omega))
          · obtain ⟨r', found, contains⟩ := covers x solves agrees
            rw [candidates] at found
            cases found
            exact contains
          · have tells := children w budget
            generalize search equations ranges rest ((i, w) :: choice) budget = result at tells cut
            obtain ⟨outcome, left⟩ := result
            cases cut
            exact tells
      · rename_i impossible
        intro x solves agrees
        exact impossible (solves.all_isPossible agrees)

end

end LoopConflict.Linear
