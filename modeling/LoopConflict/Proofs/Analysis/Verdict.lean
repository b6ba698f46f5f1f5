import LoopConflict.Proofs.Analysis.Pairs

/-!
The verdict on a pair is the truth about its indices (`pair_verdict`). If the pair is infeasible, no
values of the induction variables within their ranges make the indices of the two accesses equal; if it
is feasible, its witness has such values under the names of the copies. This rests on the names of the
copies being different for different variables and sides, which they are where the registers of phis
are.
-/
namespace LoopConflict

open Program (Function Place Value)
open Evolution (Context)
open Access

/-- The value that the witness has for the copy of a variable. -/
def Pair.reading (f : Function) (p : Pair) (side : Side) (iv : InductionVariable) : Option Int :=
  (p.result.witness.lookup (copyName f side iv)).map Int64.toInt

theorem lookup_of_getElem? {entries : List (String × Int64)} (distinct : (entries.map (·.1)).Nodup) {i : Nat}
    {name : String} {n : Int64} (here : entries[i]? = some (name, n)) : entries.lookup name = some n := by
  induction entries generalizing i with
  | nil => simp at here
  | cons entry rest ih =>
    rw [List.map_cons, List.nodup_cons] at distinct
    cases i with
    | zero =>
      simp at here
      simp [here]
    | succ i =>
      rw [List.getElem?_cons_succ] at here
      have member : name ∈ rest.map (·.1) := List.mem_map.mpr ⟨(name, n), List.mem_of_getElem? here, rfl⟩
      have other : (name == entry.1) = false := beq_false_of_ne fun same => distinct.1 (same ▸ member)
      obtain ⟨entryName, value⟩ := entry
      rw [List.lookup_cons, other]
      exact ih distinct.2 here

/-- The witness has every declared name once, with the value at its position. -/
theorem lookup_of_isLast {m : Linear.Model} {r : Linear.Result} (distinct : (m.vars.map Linear.Var.name).Nodup)
    (names : r.witness.map (·.1) = m.vars.map Linear.Var.name) {i : Nat} {name : String} (last : m.IsLast i name) :
    (r.witness.lookup name).map Int64.toInt = some (r.assignment i) := by
  have position : (r.witness.map (·.1))[i]? = some name := by
    rw [names, List.getElem?_map]
    exact last.1
  rw [List.getElem?_map, Option.map_eq_some_iff] at position
  obtain ⟨⟨name', n⟩, here, rfl⟩ := position
  rw [lookup_of_getElem? (names ▸ distinct) here, Linear.Result.assignment, here]
  rfl

section

variable {f : Function} {o : Options} {p : Pair}

theorem not_conflict_of_infeasible (settled : p.Settled (analyze f o).context o (inductionVariables f))
    (named : f.PhisNamed) (infeasible : p.result.status = .infeasible) :
    ¬ ∃ x y, Conflict (analyze f o).context p.a p.b x y := by
  rintro ⟨x, y, conflict⟩
  obtain ⟨values, v, solution⟩ := settled.model.exists_solution (settled.told named) conflict
  have tells := Linear.solve_tells p.model o.budget
  rw [Linear.SolveTells, ← settled.result, infeasible] at tells
  exact tells values v solution

theorem conflict_of_feasible (settled : p.Settled (analyze f o).context o (inductionVariables f))
    (named : f.PhisNamed) (feasible : p.result.status = .feasible) :
    ∃ x y, Conflict (analyze f o).context p.a p.b x y ∧
      (∀ iv ∈ p.a.variables, p.reading f .first iv = some (x iv)) ∧
        ∀ iv ∈ p.b.variables, p.reading f .second iv = some (y iv) := by
  have told := settled.told named
  have distinct := settled.model.nodup_names
  have tells := Linear.solve_tells p.model o.budget
  rw [Linear.SolveTells, ← settled.result, feasible] at tells
  obtain ⟨names, ⟨v, solution⟩, _, _⟩ := tells
  have conflict := settled.model.conflict told settled.arity solution
  have read : ∀ side : Side, ∀ iv ∈ (side.pick p.a p.b).variables, p.reading f side iv = some (v (copyName f side iv)) := by
    intro side iv used
    obtain ⟨i, _, last⟩ := settled.model.exists_declared told settled.arity used
    have denoted := solution.denoted i _ last
    rw [analyze_function] at last denoted
    rw [Pair.reading, lookup_of_isLast distinct names last, denoted]
  rw [analyze_function] at conflict
  exact ⟨_, _, conflict, read .first, read .second⟩

end

/-- The verdict on a pair is the truth about its indices, and the copies that it is read through belong to
    one variable and one side each. -/
theorem pair_verdict (f : Function) (o : Options) (named : f.PhisNamed) (r : LoopResult)
    (inLoops : r ∈ (analyze f o).loops) (p : Pair) (inPairs : p ∈ r.pairs) :
    p.a.equations.length = p.b.equations.length ∧
      (p.result.status = .infeasible → ¬ ∃ x y, Conflict (analyze f o).context p.a p.b x y) ∧
      (p.result.status = .feasible →
        ∃ x y, Conflict (analyze f o).context p.a p.b x y ∧
          (∀ iv ∈ p.a.variables, p.reading f .first iv = some (x iv)) ∧
            ∀ iv ∈ p.b.variables, p.reading f .second iv = some (y iv)) ∧
      (∀ iv ∈ p.a.variables ++ p.b.variables, iv ∈ inductionVariables f) ∧
      ∀ side side', ∀ iv ∈ inductionVariables f, ∀ iv' ∈ inductionVariables f,
        copyName f side iv = copyName f side' iv' → side = side' ∧ iv = iv' := by
  have settled := analyze_settled inLoops inPairs
  refine ⟨settled.arity, not_conflict_of_infeasible settled named, conflict_of_feasible settled named, ?_, ?_⟩
  · intro iv used
    rcases List.mem_append.mp used with first | second
    · exact settled.first.mem_of_mem_variables first
    · exact settled.second.mem_of_mem_variables second
  · intro side side' iv member iv' member' same
    have known := analyze_known (o := o) member
    have known' := analyze_known (o := o) member'
    have function := analyze_function f o
    rw [← function] at named same
    exact copyName_injective named known known' same

/-- In ten iterations, every other element is read and its neighbour written, and so is the element of
    the iteration itself. -/
def strides : Function where
  name := "strides"
  receiver := none
  types := []
  params := [⟨"a", .slice (.basic .int), 0⟩]
  free := []
  globals := []
  constants := [⟨.int 0, .basic .int⟩, ⟨.int 1, .basic .int⟩, ⟨.int 2, .basic .int⟩, ⟨.int 10, .basic .int⟩]
  blocks := [
    ⟨"entry", [], [1], [⟨.jump, none, 0⟩]⟩,
    ⟨"for.loop", [0, 2], [2, 3], [
      ⟨.phi [.const 0, .result ⟨2, 8⟩] "i", some ("t0", .basic .int), 0⟩,
      ⟨.binary (.compare .lt) (.result ⟨1, 0⟩) (.const 3), some ("t1", .basic .bool), 0⟩,
      ⟨.branch (.result ⟨1, 1⟩), none, 0⟩]⟩,
    ⟨"for.body", [1], [1], [
      ⟨.binary .mul (.const 2) (.result ⟨1, 0⟩), some ("t2", .basic .int), 0⟩,
      ⟨.binary .add (.result ⟨2, 0⟩) (.const 1), some ("t3", .basic .int), 0⟩,
      ⟨.indexAddress (.param 0) (.result ⟨2, 1⟩), some ("t4", .pointer (.basic .int)), 0⟩,
      ⟨.load (.result ⟨2, 2⟩), some ("t5", .basic .int), 0⟩,
      ⟨.indexAddress (.param 0) (.result ⟨2, 0⟩), some ("t6", .pointer (.basic .int)), 0⟩,
      ⟨.store (.result ⟨2, 4⟩) (.result ⟨2, 3⟩), none, 0⟩,
      ⟨.indexAddress (.param 0) (.result ⟨1, 0⟩), some ("t7", .pointer (.basic .int)), 0⟩,
      ⟨.store (.result ⟨2, 6⟩) (.result ⟨2, 3⟩), none, 0⟩,
      ⟨.binary .add (.result ⟨1, 0⟩) (.const 1), some ("t8", .basic .int), 0⟩,
      ⟨.jump, none, 0⟩]⟩,
    ⟨"for.done", [1], [], [⟨.leave [], none, 0⟩]⟩]
  recover := none

theorem strides_phisNamed : strides.PhisNamed :=
  ⟨by decide +kernel, by decide +kernel⟩

theorem strides_verdicts :
    (∃ r ∈ (analyze strides {}).loops, ∃ p ∈ r.pairs, p.result.status = .infeasible ∧
      ¬ ∃ x y, Conflict (analyze strides {}).context p.a p.b x y) ∧
    ∃ r ∈ (analyze strides {}).loops, ∃ p ∈ r.pairs, p.result.status = .feasible ∧
      ∃ x y, Conflict (analyze strides {}).context p.a p.b x y := by
  have infeasible : ∃ r ∈ (analyze strides {}).loops, ∃ p ∈ r.pairs, p.result.status = .infeasible := by decide +kernel
  have feasible : ∃ r ∈ (analyze strides {}).loops, ∃ p ∈ r.pairs, p.result.status = .feasible := by decide +kernel
  obtain ⟨r, inLoops, p, inPairs, status⟩ := infeasible
  obtain ⟨r', inLoops', p', inPairs', status'⟩ := feasible
  have verdict := pair_verdict strides {} strides_phisNamed r inLoops p inPairs
  have verdict' := pair_verdict strides {} strides_phisNamed r' inLoops' p' inPairs'
  obtain ⟨x, y, conflict, _⟩ := verdict'.2.2.1 status'
  exact ⟨⟨r, inLoops, p, inPairs, status, verdict.2.1 status⟩, r', inLoops', p', inPairs', status', x, y, conflict⟩

end LoopConflict
