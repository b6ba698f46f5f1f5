import LoopConflict.Proofs.Analysis.Coverage
import LoopConflict.Proofs.Analysis.Verdict

/-!
The model of a loop is the conjunction of the models of its pairs. It has their constraints, numbered anew, and their
variables, each once (`Model.Joins`). If the copies of variables can be told apart by their names, a variable has the
same bounds wherever it is declared, so that the model of the loop has the solutions that all models of pairs have
in common (`loop_model_joins`).
-/
namespace LoopConflict

open Loop (Forest LoopId)
open Program (Function Place Value)
open Evolution (Expr Context Query Ensures ensures_pure ensures_get)
open Access

namespace Linear

/-! ### Constraints and solutions -/

/-- Constraints under the names of their positions. -/
def renumbered (constraints : List Constraint) : List Constraint :=
  constraints.mapIdx fun i k => { k with name := "eqn" ++ Text.nat i }

/-- The equation of a constraint, without its name. -/
def Constraint.sides (k : Constraint) : Form × Form :=
  (k.lhs, k.rhs)

/-- The names that a constraint uses, from left to right. -/
def Constraint.used (k : Constraint) : List String :=
  (k.lhs.terms ++ k.rhs.terms).map (·.var)

theorem renumbered_congr {ks ks' : List Constraint} (same : ks.map Constraint.sides = ks'.map Constraint.sides) :
    renumbered ks = renumbered ks' := by
  refine List.ext_getElem? fun i => ?_
  have here : (ks[i]?).map Constraint.sides = (ks'[i]?).map Constraint.sides := by
    rw [← List.getElem?_map, ← List.getElem?_map, same]
  rw [renumbered, renumbered, List.getElem?_mapIdx, List.getElem?_mapIdx]
  cases left : ks[i]? <;> cases right : ks'[i]? <;> simp_all [Constraint.sides]

theorem forall_holds_renumbered {ks : List Constraint} {v : String → Int} :
    (∀ k ∈ renumbered ks, k.Holds v) ↔ ∀ k ∈ ks, k.Holds v := by
  constructor
  · intro holds k member
    obtain ⟨i, inside, rfl⟩ := List.mem_iff_getElem.mp member
    have renamed := holds _ (List.mem_mapIdx.mpr ⟨i, inside, rfl⟩)
    exact renamed
  · intro holds k member
    obtain ⟨i, inside, rfl⟩ := List.mem_mapIdx.mp member
    exact holds ks[i] (List.getElem_mem inside)

namespace Model

/-- The values that a model's own variables have. -/
def restrict (m : Model) (v : String → Int) (i : Nat) : Int :=
  ((m.vars[i]?).map fun var => v var.name).getD 0

/-- The values are within the bounds of the variables, and all constraints hold. -/
structure Satisfied (m : Model) (v : String → Int) : Prop where
  admitted : ∀ var ∈ m.vars, var.Admits (v var.name)
  holds : ∀ k ∈ m.constraints, k.Holds v

theorem Satisfied.solution {m : Model} {v : String → Int} (satisfied : m.Satisfied v) : m.Solution (m.restrict v) v := by
  refine ⟨fun i var declared => ?_, fun i name last => ?_, satisfied.holds⟩
  · rw [restrict, declared]
    exact satisfied.admitted var (List.mem_of_getElem? declared)
  · obtain ⟨var, declared, rfl⟩ := Option.map_eq_some_iff.mp last.1
    simp [restrict, declared]

theorem Solution.satisfied {m : Model} {x : Nat → Int} {v : String → Int} (solution : m.Solution x v)
    (distinct : (m.vars.map Var.name).Nodup) : m.Satisfied v := by
  refine ⟨fun var member => ?_, solution.holds⟩
  obtain ⟨i, declared⟩ := List.mem_iff_getElem?.mp member
  have last : m.IsLast i var.name := by
    refine ⟨by rw [declared]; rfl, fun j later again => later.ne ?_⟩
    have inside : i < (m.vars.map Var.name).length := by
      rw [List.length_map]
      exact (List.getElem?_eq_some_iff.mp declared).1
    refine (List.getElem?_inj inside distinct).mp ?_
    rw [List.getElem?_map, List.getElem?_map, again, declared]
    rfl
  rw [solution.denoted i var.name last]
  exact solution.admitted i var declared

/-- The model puts others together: it has their constraints, numbered anew; their variables, each once and in order,
    which are those that the constraints use, in the order of their first use; and the first one as its objective. -/
structure Joins (m : Model) (parts : List Model) : Prop where
  constraints : m.constraints = renumbered (parts.flatMap (·.constraints))
  names : m.vars.map (·.name) = (parts.flatMap fun part => part.vars.map (·.name)).eraseDups
  uses : m.vars.map (·.name) = (m.constraints.flatMap Constraint.used).eraseDups
  objective : (m.vars.head?).map (·.name) = some m.objective

/-- With the same bounds everywhere the values that satisfy the model are those that satisfy all parts. -/
theorem Joins.satisfied_iff {m : Model} {parts : List Model} (joins : m.Joins parts)
    (vars : m.vars = (parts.flatMap (·.vars)).eraseDups) {v : String → Int} :
    m.Satisfied v ↔ ∀ part ∈ parts, part.Satisfied v := by
  have member : ∀ var, var ∈ m.vars ↔ ∃ part ∈ parts, var ∈ part.vars := by
    intro var
    rw [vars, List.mem_eraseDups, List.mem_flatMap]
  constructor
  · rintro ⟨admitted, holds⟩ part inParts
    rw [joins.constraints, forall_holds_renumbered] at holds
    refine ⟨fun var inside => admitted var ((member var).mpr ⟨part, inParts, inside⟩), fun k inside => ?_⟩
    exact holds k (List.mem_flatMap.mpr ⟨part, inParts, inside⟩)
  · intro all
    refine ⟨fun var inside => ?_, ?_⟩
    · obtain ⟨part, inParts, declared⟩ := (member var).mp inside
      exact (all part inParts).admitted var declared
    · rw [joins.constraints, forall_holds_renumbered]
      intro k inside
      obtain ⟨part, inParts, here⟩ := List.mem_flatMap.mp inside
      exact (all part inParts).holds k here

end Model

end Linear

namespace Access

/-! ### Copies -/

theorem map_fst_firstByName (entries : List (String × InductionVariable)) :
    (firstByName entries).map Prod.fst = (entries.map Prod.fst).eraseDups := by
  induction entries using List.reverseRecOn with
  | nil => rfl
  | append_singleton entries e ih =>
    have known : (firstByName entries).any (·.1 == e.1) = true ↔ e.1 ∈ entries.map Prod.fst := by
      rw [← List.mem_eraseDups, ← ih]
      simp [List.any_eq_true]
    rw [firstByName_append, List.map_append, List.map_singleton, eraseDups_concat, ← ih]
    by_cases seen : e.1 ∈ entries.map Prod.fst
    · rw [if_pos (known.mpr seen), if_pos seen, List.append_nil]
    · rw [if_neg (mt known.mp seen), if_neg seen, List.map_append, List.map_singleton]

theorem firstByName_eq_nil {entries : List (String × InductionVariable)} : firstByName entries = [] ↔ entries = [] := by
  constructor
  · intro none
    refine List.eq_nil_iff_forall_not_mem.mpr fun e member => ?_
    obtain ⟨e', declared, _⟩ := exists_mem_firstByName member
    rw [none] at declared
    cases declared
  · rintro rfl
    rfl

theorem copiesUsed_zip_eq_nil_iff {f : Function} {as bs : List Affine} (same : as.length = bs.length) :
    copiesUsed f (as.zip bs) = [] ↔ ∀ e ∈ as ++ bs, e.coeffs = [] := by
  have left : as = (as.zip bs).map Prod.fst := (List.map_fst_zip same.le).symm
  have right : bs = (as.zip bs).map Prod.snd := (List.map_snd_zip same.ge).symm
  have unused : copiesUsed f (as.zip bs) = [] ↔ ∀ p ∈ as.zip bs, p.1.coeffs = [] ∧ p.2.coeffs = [] := by
    simp [copiesUsed]
  rw [unused]
  constructor
  · intro none e member
    rcases List.mem_append.mp member with inLeft | inRight
    · rw [left] at inLeft
      obtain ⟨p, inZip, rfl⟩ := List.mem_map.mp inLeft
      exact (none p inZip).1
    · rw [right] at inRight
      obtain ⟨p, inZip, rfl⟩ := List.mem_map.mp inRight
      exact (none p inZip).2
  · intro none p inZip
    obtain ⟨inLeft, inRight⟩ := List.of_mem_zip inZip
    exact ⟨none p.1 (List.mem_append_left _ inLeft), none p.2 (List.mem_append_right _ inRight)⟩

section

variable {c : Context} {indices : List (Affine × Affine)} {m : Linear.Model}

theorem ModelOf.names (model : ModelOf c indices m) :
    m.vars.map (·.name) = ((copiesUsed c.function indices).map Prod.fst).eraseDups := by
  rw [model.vars, List.map_map, ← map_fst_firstByName]
  rfl

/-- Variables that can be told by their names are declared as these say. -/
theorem ModelOf.vars_eq (model : ModelOf c indices m) {var : String → Linear.Var}
    (reads : ∀ copy ∈ copiesUsed c.function indices, copyVar c copy = var copy.1) :
    m.vars = ((copiesUsed c.function indices).map Prod.fst).eraseDups.map var := by
  rw [model.vars, ← map_fst_firstByName, List.map_map]
  exact List.map_congr_left fun copy member => reads copy (mem_firstByName member)

end

theorem getElem?_constraintsOf (f : Function) (indices : List (Affine × Affine)) (i : Nat) :
    (constraintsOf f indices)[i]? = (indices[i]?).map fun p =>
      ⟨"eqn" ++ Text.nat i, p.1.linear (copyName f .first), p.2.linear (copyName f .second)⟩ := by
  simp [constraintsOf, Function.comp_def]

theorem sides_constraintsOf (f : Function) (indices : List (Affine × Affine)) :
    (constraintsOf f indices).map Linear.Constraint.sides =
      indices.map fun p => (p.1.linear (copyName f .first), p.2.linear (copyName f .second)) := by
  refine List.ext_getElem? fun i => ?_
  simp [getElem?_constraintsOf, Function.comp_def, Linear.Constraint.sides]

theorem renumbered_constraintsOf (f : Function) (indices : List (Affine × Affine)) :
    Linear.renumbered (constraintsOf f indices) = constraintsOf f indices := by
  refine List.ext_getElem? fun i => ?_
  simp [Linear.renumbered, getElem?_constraintsOf, Function.comp_def]

theorem used_constraintsOf (f : Function) (indices : List (Affine × Affine)) :
    (constraintsOf f indices).flatMap Linear.Constraint.used = (copiesUsed f indices).map Prod.fst := by
  have sides : (constraintsOf f indices).flatMap Linear.Constraint.used =
      ((constraintsOf f indices).map Linear.Constraint.sides).flatMap fun s => (s.1.terms ++ s.2.terms).map (·.var) := by
    rw [List.flatMap_map]
    rfl
  rw [sides, sides_constraintsOf, List.flatMap_map, copiesUsed, List.map_flatMap]
  simp [Affine.linear, Function.comp_def]

theorem conflictModel?_objective (label : String) (pairs : List (MemoryAccess × MemoryAccess)) :
    Ensures id (conflictModel? label pairs) fun found _ =>
      ∀ m : Linear.Model, found = some m → (m.vars.head?).map (·.name) = some m.objective := by
  refine ensures_get fun c₀ => ?_
  dsimp only
  split
  · exact ensures_pure fun _ _ m found => by cases found
  · refine (declare_ensures _).bind fun vars => ensures_pure fun c declared _ m found => ?_
    cases found
    rw [declared]
    rfl

end Access

/-! ### The models of a loop -/

/-- The indices of a pair that are to be equal. -/
def Pair.indices (p : Pair) : List (Affine × Affine) :=
  p.a.equations.zip p.b.equations

/-- What is said about the model of a loop when it is made: it is that of all pairs, if they use variables. -/
structure LoopResult.Modelled (c : Context) (r : LoopResult) : Prop where
  made : ∀ m, r.model = some m →
    ModelOf c (r.pairs.flatMap Pair.indices) m ∧ (m.vars.head?).map (·.name) = some m.objective
  unused : r.model = none → copiesUsed c.function (r.pairs.flatMap Pair.indices) = []

theorem analyzeLoop_modelled (o : Options) (ivs : Variables) (l : LoopId) :
    Ensures Analysis.State.context (Analysis.analyzeLoop o ivs l) fun r c => r.Modelled c := by
  refine Analysis.analyzeLoop_ensures_of o ivs l (fun _ c => ⟨fun m found => (by cases found), fun _ => rfl⟩)
    fun F iv found => ?_
  refine (Analysis.describeAll_ensures o ivs l _).bind fun described =>
    (Analysis.solveGroups_ensures o l ivs _).bind fun solved => ?_
  have indices : equalIndices (solved.1.map fun p => (p.a, p.b)) = solved.1.flatMap Pair.indices := by
    rw [equalIndices, List.flatMap_map]
    rfl
  have made := (conflictModel?_ensures o.label (solved.1.map fun p => (p.a, p.b))).and (conflictModel?_objective o.label _)
  rw [indices] at made
  refine (Analysis.ask_ensures made).bind fun model => ensures_pure ?_
  rintro c ⟨model, objective⟩ _ _ _
  refine ⟨?_, ?_⟩
  · rintro m rfl
    exact ⟨model, objective m rfl⟩
  · rintro rfl
    exact firstByName_eq_nil.mp model

section

variable {c : Context} {o : Options} {ivs : Variables} {r : LoopResult} {m : Linear.Model}

theorem copiesUsed_flatMap (f : Function) (pairs : List Pair) :
    copiesUsed f (pairs.flatMap Pair.indices) = pairs.flatMap fun p => copiesUsed f p.indices :=
  List.flatMap_assoc

/-- There is a model if some index uses a variable. -/
theorem LoopResult.Modelled.model_eq_none_iff (modelled : r.Modelled c) (settled : ∀ p ∈ r.pairs, p.Settled c o ivs) :
    r.model = none ↔ ∀ p ∈ r.pairs, ∀ e ∈ p.a.equations ++ p.b.equations, e.coeffs = [] := by
  have unused : copiesUsed c.function (r.pairs.flatMap Pair.indices) = [] ↔
      ∀ p ∈ r.pairs, ∀ e ∈ p.a.equations ++ p.b.equations, e.coeffs = [] := by
    rw [copiesUsed_flatMap, List.flatMap_eq_nil_iff]
    exact forall₂_congr fun p member => copiesUsed_zip_eq_nil_iff (settled p member).arity
  rw [← unused]
  refine ⟨modelled.unused, fun none => ?_⟩
  cases found : r.model with
  | none => rfl
  | some m =>
    obtain ⟨model, objective⟩ := modelled.made m found
    rw [model.vars, none] at objective
    cases objective

theorem LoopResult.Modelled.joins (modelled : r.Modelled c) (settled : ∀ p ∈ r.pairs, p.Settled c o ivs)
    (found : r.model = some m) : m.Joins (r.pairs.map (·.model)) := by
  obtain ⟨model, objective⟩ := modelled.made m found
  refine ⟨?_, ?_, ?_, objective⟩
  · rw [model.constraints, ← renumbered_constraintsOf, List.flatMap_map]
    refine Linear.renumbered_congr ?_
    rw [sides_constraintsOf, List.map_flatMap, List.map_flatMap]
    refine List.flatMap_congr fun p member => ?_
    rw [(settled p member).model.constraints, sides_constraintsOf]
    rfl
  · rw [model.names, copiesUsed_flatMap, List.map_flatMap, ← eraseDups_flatMap, List.flatMap_map]
    refine congrArg List.eraseDups (List.flatMap_congr fun p member => ?_)
    rw [(settled p member).model.names]
    rfl
  · rw [model.names, model.constraints, used_constraintsOf]

/-- The bounds of a variable are the same wherever it is declared. -/
theorem LoopResult.Modelled.vars_eq (modelled : r.Modelled c) (settled : ∀ p ∈ r.pairs, p.Settled c o ivs)
    (named : c.function.PhisNamed) (told : ∀ p ∈ r.pairs, Told c p.a p.b) (found : r.model = some m) :
    m.vars = (r.pairs.flatMap (·.model.vars)).eraseDups := by
  obtain ⟨model, _⟩ := modelled.made m found
  obtain ⟨range, ranges⟩ := exists_copy_values named fun _ iv => (bounds iv c).1
  let var : String → Linear.Var := fun name => ⟨name, (range name).1, (range name).2⟩
  have injective : var.Injective := fun name name' same => congrArg Linear.Var.name same
  have reads : ∀ p ∈ r.pairs, ∀ copy ∈ copiesUsed c.function p.indices, copyVar c copy = var copy.1 := by
    intro p member copy used
    obtain ⟨side, name, inSide⟩ := exists_side_of_mem_copiesUsed used
    have here := ranges side copy.2 ((told p member).known inSide)
    rw [← name] at here
    simp only [copyVar, var, here]
  have parts : (r.pairs.flatMap (·.model.vars)) =
      (r.pairs.flatMap fun p => ((copiesUsed c.function p.indices).map Prod.fst).eraseDups).map var := by
    rw [List.map_flatMap]
    exact List.flatMap_congr fun p member => (settled p member).model.vars_eq (reads p member)
  have all : ∀ copy ∈ copiesUsed c.function (r.pairs.flatMap Pair.indices), copyVar c copy = var copy.1 := by
    intro copy used
    rw [copiesUsed_flatMap] at used
    obtain ⟨p, member, here⟩ := List.mem_flatMap.mp used
    exact reads p member copy here
  rw [parts, eraseDups_map injective, eraseDups_flatMap, model.vars_eq all, copiesUsed_flatMap, List.map_flatMap]

end

/-- The model of a loop is the conjunction of the models of its pairs. -/
theorem loop_model_joins (f : Function) (o : Options) (r : LoopResult) (inLoops : r ∈ (analyze f o).loops) :
    (r.model = none ↔ ∀ p ∈ r.pairs, ∀ e ∈ p.a.equations ++ p.b.equations, e.coeffs = []) ∧
    ∀ m, r.model = some m →
      m.Joins (r.pairs.map (·.model)) ∧
      (f.PhisNamed →
        m.vars = (r.pairs.flatMap (·.model.vars)).eraseDups ∧
        (∀ x v, m.Solution x v → ∀ p ∈ r.pairs, p.model.Solution (p.model.restrict v) v) ∧
        (∀ v, (∀ p ∈ r.pairs, p.model.Solution (p.model.restrict v) v) → m.Solution (m.restrict v) v) ∧
        ∀ p ∈ r.pairs, p.result.status = .infeasible → ∀ x v, ¬ m.Solution x v) := by
  obtain ⟨_, _, modelled⟩ := exists_of_mem_right (analyze_forall f o (analyzeLoop_modelled o _)) inLoops
  have settled : ∀ p ∈ r.pairs, p.Settled (analyze f o).context o (inductionVariables f) :=
    fun p inPairs => analyze_settled inLoops inPairs
  refine ⟨modelled.model_eq_none_iff settled, fun m found => ?_⟩
  have joins := modelled.joins settled found
  refine ⟨joins, fun named => ?_⟩
  have told : ∀ p ∈ r.pairs, Told (analyze f o).context p.a p.b := fun p inPairs => (settled p inPairs).told named
  have vars := modelled.vars_eq settled ((analyze_function f o).symm ▸ named) told found
  have all : ∀ v, m.Satisfied v ↔ ∀ p ∈ r.pairs, p.model.Satisfied v := by
    intro v
    rw [joins.satisfied_iff (by rw [vars, List.flatMap_map]), List.forall_mem_map]
  have restricts : ∀ x v, m.Solution x v → ∀ p ∈ r.pairs, p.model.Solution (p.model.restrict v) v := by
    intro x v solution p inPairs
    have distinct : (m.vars.map Linear.Var.name).Nodup := joins.names ▸ nodup_eraseDups _
    exact ((all v).mp (solution.satisfied distinct) p inPairs).solution
  refine ⟨vars, restricts, fun v solutions => ?_, fun p inPairs infeasible x v solution => ?_⟩
  · refine ((all v).mpr fun p inPairs => ?_).solution
    exact (solutions p inPairs).satisfied (settled p inPairs).model.nodup_names
  · have tells := Linear.solve_tells p.model o.budget
    rw [← (settled p inPairs).result, Linear.SolveTells, infeasible] at tells
    exact tells _ v (restricts x v solution p inPairs)

theorem strides_joins : ∃ r ∈ (analyze strides {}).loops, ∃ m, r.model = some m ∧ m.Joins (r.pairs.map (·.model)) ∧
    m.vars.map (·.name) = ["i_t0_a", "i_t0_B"] ∧ m.constraints.map (·.name) = ["eqn0", "eqn1", "eqn2"] ∧
    ∀ x v, ¬ m.Solution x v := by
  have found : ∃ r ∈ (analyze strides {}).loops, ∃ m ∈ r.model, (∃ p ∈ r.pairs, p.result.status = .infeasible) ∧
      m.vars.map (·.name) = ["i_t0_a", "i_t0_B"] ∧ m.constraints.map (·.name) = ["eqn0", "eqn1", "eqn2"] := by
    decide +kernel
  obtain ⟨r, inLoops, m, model, ⟨p, inPairs, infeasible⟩, names, constraints⟩ := found
  obtain ⟨joins, conjunction⟩ := (loop_model_joins strides {} r inLoops).2 m model
  exact ⟨r, inLoops, m, model, joins, names, constraints, (conjunction strides_phisNamed).2.2.2 p inPairs infeasible⟩

end LoopConflict
