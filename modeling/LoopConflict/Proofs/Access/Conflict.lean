import LoopConflict.Proofs.Access.Induction
import LoopConflict.Proofs.Linear.Solve

/-!
The model of a pair of accesses says when they conflict: when each side gives its variables values
within their ranges so that the indices are equal at every position (`Conflict`). The copies that are
declared have distinct names and the ranges of their variables, so a conflict is a solution of the
model (`ModelOf.exists_solution`) and a solution is a conflict once it is read through the names of
the copies (`ModelOf.conflict`).
-/
namespace LoopConflict.Access

open Program (Function Place Value)
open Evolution (Expr Context Query Grows Settles Ensures grows_pure grows_get settles_pure settles_get
  ensures_pure ensures_get)

/-! ### Conflicts -/

/-- The value of an affine function where its variables have values. -/
def Affine.value (x : InductionVariable → Int) (a : Affine) : Int :=
  (a.coeffs.map fun c => c.value.toInt * x c.iv).sum + a.const.toInt

/-- The variables that the indices of an access use. -/
def MemoryAccess.variables (a : MemoryAccess) : List InductionVariable :=
  a.equations.flatMap fun e => e.coeffs.map (·.iv)

/-- The bounds of the variable that are known admit the value. -/
structure InRange (c : Context) (iv : InductionVariable) (n : Int) : Prop where
  lower : ∀ lo, (bounds iv c).1.1 = some lo → lo.toInt ≤ n
  upper : ∀ hi, (bounds iv c).1.2 = some hi → n ≤ hi.toInt

/-- Both sides give their variables values within their ranges. -/
structure InRanges (c : Context) (a b : MemoryAccess) (x y : InductionVariable → Int) : Prop where
  first : ∀ iv ∈ a.variables, InRange c iv (x iv)
  second : ∀ iv ∈ b.variables, InRange c iv (y iv)

/-- The indices of the two sides are equal at every position, with values within the ranges of the
    variables. -/
structure Conflict (c : Context) (a b : MemoryAccess) (x y : InductionVariable → Int) : Prop
    extends InRanges c a b x y where
  equal : ∀ (k : Nat) (e e' : Affine), a.equations[k]? = some e → b.equations[k]? = some e' → e.value x = e'.value y

theorem MemoryAccess.mem_variables {a : MemoryAccess} {e : Affine} (member : e ∈ a.equations) {coeff : Coefficient}
    (used : coeff ∈ e.coeffs) : coeff.iv ∈ a.variables :=
  List.mem_flatMap.mpr ⟨e, member, List.mem_map.mpr ⟨coeff, used, rfl⟩⟩

theorem Affine.value_linear (v : String → Int) (name : InductionVariable → String) (a : Affine) :
    (a.linear name).value v = a.value fun iv => v (name iv) := by
  simp [Affine.linear, Linear.Form.value, Affine.value, Function.comp_def]

theorem Affine.value_congr {x y : InductionVariable → Int} {a : Affine}
    (same : ∀ coeff ∈ a.coeffs, x coeff.iv = y coeff.iv) : a.value x = a.value y := by
  have terms : (a.coeffs.map fun c => c.value.toInt * x c.iv) = a.coeffs.map fun c => c.value.toInt * y c.iv :=
    List.map_congr_left fun coeff member => by rw [same coeff member]
  rw [Affine.value, Affine.value, terms]

/-! ### The model of a pair -/

/-- The range of a variable stays once it has been asked for. -/
theorem settles_bounds (iv : InductionVariable) : Settles (bounds iv) (bounds iv) := by
  refine settles_get fun c c' later => ?_
  rw [later.forest]
  refine (Query.settles_atScope _ iv.recurrence).bind fun exit => ?_
  cases exit with
  | const exit =>
    refine (Query.settles_tripCount iv.loop).bind fun count => ?_
    split <;> exact (settles_pure _).bind fun last => settles_pure _
  | _ => exact (settles_pure none).bind fun last => settles_pure _

/-- A copy with the range of its variable. -/
def copyVar (c : Context) (copy : String × InductionVariable) : Linear.Var :=
  ⟨copy.1, (bounds copy.2 c).1.1, (bounds copy.2 c).1.2⟩

theorem declare_ensures (copies : List (String × InductionVariable)) :
    Ensures id (declare copies) fun vars c => vars = copies.map (copyVar c) := by
  induction copies with
  | nil => exact ensures_pure fun _ => rfl
  | cons copy rest ih =>
    refine (settles_bounds copy.2).ensures.bind fun range => ih.bind fun vars => ensures_pure fun c others here => ?_
    rw [List.map_cons, ← others, copyVar, here]

/-- The model has the copies that the indices use, each with its range, and the constraints that the
    indices are equal. -/
structure ModelOf (c : Context) (indices : List (Affine × Affine)) (m : Linear.Model) : Prop where
  vars : m.vars = (firstByName (copiesUsed c.function indices)).map (copyVar c)
  constraints : m.constraints = constraintsOf c.function indices

theorem conflictModel?_ensures (label : String) (pairs : List (MemoryAccess × MemoryAccess)) :
    Ensures id (conflictModel? label pairs) fun found c =>
      match found with
      | some m => ModelOf c (equalIndices pairs) m
      | none => firstByName (copiesUsed c.function (equalIndices pairs)) = [] := by
  refine ensures_get fun c₀ => ?_
  dsimp only
  have same : ∀ c, Context.Extends c₀ c → c.function = c₀.function := fun _ later => later.function
  split
  · rename_i none
    refine ensures_pure fun c later => ?_
    rw [same c later]
    exact none
  · rename_i some
    refine (declare_ensures _).bind fun vars => ensures_pure fun c declared later => ?_
    refine ⟨?_, ?_⟩
    · rw [same c later, some, declared]
    · rw [same c later]

theorem pairModel_ensures (label : String) (a b : MemoryAccess) :
    Ensures id (pairModel label (a, b)) fun m c => ModelOf c (a.equations.zip b.equations) m := by
  have indices : equalIndices [(a, b)] = a.equations.zip b.equations := by simp [equalIndices]
  rw [← indices]
  refine (conflictModel?_ensures label [(a, b)]).bind fun found => ?_
  split
  · exact ensures_pure fun c model => model
  · refine ensures_get fun c₀ => ensures_pure fun c later none => ?_
    have same : c.function = c₀.function := Context.Extends.function later
    refine ⟨?_, ?_⟩
    · rw [none, List.map_nil]
    · rw [same]

/-! ### The copies that are declared -/

theorem firstByName_append (entries : List (String × InductionVariable)) (e : String × InductionVariable) :
    firstByName (entries ++ [e]) =
      if (firstByName entries).any (·.1 == e.1) then firstByName entries else firstByName entries ++ [e] := by
  rw [firstByName, List.foldl_append]
  rfl

theorem mem_firstByName {entries : List (String × InductionVariable)} {e : String × InductionVariable}
    (member : e ∈ firstByName entries) : e ∈ entries := by
  induction entries using List.reverseRecOn with
  | nil => cases member
  | append_singleton entries last ih =>
    rw [firstByName_append] at member
    split at member
    · simp [ih member]
    · rcases List.mem_append.mp member with before | here
      · simp [ih before]
      · simp [List.mem_singleton.mp here]

theorem nodup_firstByName (entries : List (String × InductionVariable)) :
    ((firstByName entries).map Prod.fst).Nodup := by
  induction entries using List.reverseRecOn with
  | nil => exact List.nodup_nil
  | append_singleton entries last ih =>
    rw [firstByName_append]
    split
    · exact ih
    · rename_i fresh
      rw [List.map_append, List.map_singleton, List.nodup_append]
      refine ⟨ih, List.nodup_singleton _, fun name inside name' here same => fresh ?_⟩
      obtain ⟨e, member, rfl⟩ := List.mem_map.mp inside
      rw [List.mem_singleton.mp here] at same
      exact List.any_eq_true.mpr ⟨e, member, by simp [same]⟩

/-- Every name that is used is declared. -/
theorem exists_mem_firstByName {entries : List (String × InductionVariable)} {e : String × InductionVariable}
    (member : e ∈ entries) : ∃ e' ∈ firstByName entries, e'.1 = e.1 := by
  induction entries using List.reverseRecOn with
  | nil => cases member
  | append_singleton entries last ih =>
    rw [firstByName_append]
    rcases List.mem_append.mp member with before | here
    · obtain ⟨e', found, same⟩ := ih before
      split
      · exact ⟨e', found, same⟩
      · exact ⟨e', by simp [found], same⟩
    · rw [List.mem_singleton.mp here]
      split
      · rename_i known
        obtain ⟨e', found, same⟩ := List.any_eq_true.mp known
        exact ⟨e', found, by simpa using same⟩
      · exact ⟨last, by simp, rfl⟩

/-- The access that stands on a side. -/
def Side.pick {α : Type} (side : Side) (first second : α) : α :=
  match side with
  | .first => first
  | .second => second

/-- What is declared are copies of the variables that the side uses. -/
theorem exists_side_of_mem_copiesUsed {f : Function} {a b : MemoryAccess} {copy : String × InductionVariable}
    (member : copy ∈ copiesUsed f (a.equations.zip b.equations)) :
    ∃ side : Side, copy.1 = copyName f side copy.2 ∧ copy.2 ∈ (side.pick a b).variables := by
  obtain ⟨p, inZip, used⟩ := List.mem_flatMap.mp member
  obtain ⟨inFirst, inSecond⟩ := List.of_mem_zip inZip
  rcases List.mem_append.mp used with left | right
  · obtain ⟨coeff, inCoeffs, rfl⟩ := List.mem_map.mp left
    exact ⟨.first, rfl, MemoryAccess.mem_variables inFirst inCoeffs⟩
  · obtain ⟨coeff, inCoeffs, rfl⟩ := List.mem_map.mp right
    exact ⟨.second, rfl, MemoryAccess.mem_variables inSecond inCoeffs⟩

/-- All variables that a side uses are declared if none of its indices stands alone. -/
theorem mem_copiesUsed {f : Function} {a b : MemoryAccess} (same : a.equations.length = b.equations.length)
    {side : Side} {iv : InductionVariable} (used : iv ∈ (side.pick a b).variables) :
    (copyName f side iv, iv) ∈ copiesUsed f (a.equations.zip b.equations) := by
  obtain ⟨e, member, inCoeffs⟩ := List.mem_flatMap.mp used
  obtain ⟨coeff, inside, rfl⟩ := List.mem_map.mp inCoeffs
  cases side with
  | first =>
    have paired : e ∈ (a.equations.zip b.equations).map Prod.fst := by
      rw [List.map_fst_zip same.le]
      exact member
    obtain ⟨p, inZip, rfl⟩ := List.mem_map.mp paired
    exact List.mem_flatMap.mpr ⟨p, inZip, List.mem_append_left _ (List.mem_map.mpr ⟨coeff, inside, rfl⟩)⟩
  | second =>
    have paired : e ∈ (a.equations.zip b.equations).map Prod.snd := by
      rw [List.map_snd_zip same.ge]
      exact member
    obtain ⟨p, inZip, rfl⟩ := List.mem_map.mp paired
    exact List.mem_flatMap.mpr ⟨p, inZip, List.mem_append_right _ (List.mem_map.mpr ⟨coeff, inside, rfl⟩)⟩

theorem mem_constraintsOf {f : Function} {indices : List (Affine × Affine)} {constraint : Linear.Constraint}
    (member : constraint ∈ constraintsOf f indices) :
    ∃ p ∈ indices, constraint.lhs = p.1.linear (copyName f .first) ∧ constraint.rhs = p.2.linear (copyName f .second) := by
  obtain ⟨⟨p, i⟩, numbered, rfl⟩ := List.mem_map.mp member
  exact ⟨p, List.mem_of_getElem? (List.mem_zipIdx_iff_getElem?.mp numbered), rfl, rfl⟩

theorem exists_mem_constraintsOf {f : Function} {indices : List (Affine × Affine)} {p : Affine × Affine}
    (member : p ∈ indices) :
    ∃ constraint ∈ constraintsOf f indices,
      constraint.lhs = p.1.linear (copyName f .first) ∧ constraint.rhs = p.2.linear (copyName f .second) := by
  obtain ⟨k, here⟩ := List.mem_iff_getElem?.mp member
  exact ⟨_, List.mem_map.mpr ⟨(p, k), List.mem_zipIdx_iff_getElem?.mpr here, rfl⟩, rfl, rfl⟩

/-! ### Solutions -/

section

variable {c : Context} {a b : MemoryAccess} {m : Linear.Model}

/-- The variables of both sides are known, and each copy can be told from the others. -/
structure Told (c : Context) (a b : MemoryAccess) : Prop where
  named : c.function.PhisNamed
  first : ∀ iv ∈ a.variables, iv.Known c
  second : ∀ iv ∈ b.variables, iv.Known c

theorem Told.known (told : Told c a b) {side : Side} {iv : InductionVariable}
    (used : iv ∈ (side.pick a b).variables) : iv.Known c := by
  cases side with
  | first => exact told.first iv used
  | second => exact told.second iv used

/-- What is told about the variables of both sides can be told by the names of their copies. -/
theorem exists_copy_values {β : Type} [Inhabited β] (named : c.function.PhisNamed) (told : Side → InductionVariable → β) :
    ∃ v : String → β, ∀ (side : Side) (iv : InductionVariable), iv.Known c → v (copyName c.function side iv) = told side iv := by
  -- A name is read back through its copy, which is the only known one of this name.
  let Copy := { copy : Side × InductionVariable // copy.2.Known c }
  let name : Copy → String := fun copy => copyName c.function copy.1.1 copy.1.2
  have injective : name.Injective := by
    rintro ⟨⟨side, iv⟩, known⟩ ⟨⟨side', iv'⟩, known'⟩ same
    obtain ⟨rfl, rfl⟩ := copyName_injective named known known' same
    rfl
  refine ⟨Function.extend name (fun copy => told copy.1.1 copy.1.2) fun _ => default, fun side iv known => ?_⟩
  exact injective.extend_apply _ _ ⟨(side, iv), known⟩

/-- A conflict solves the model. -/
theorem ModelOf.exists_solution (model : ModelOf c (a.equations.zip b.equations) m) (told : Told c a b) {x y : InductionVariable → Int}
    (conflict : Conflict c a b x y) : ∃ values v, m.Solution values v := by
  obtain ⟨v, reads⟩ := exists_copy_values told.named fun side => side.pick x y
  refine ⟨fun i => ((m.vars[i]?).map fun var => v var.name).getD 0, v, ?_, ?_, ?_⟩
  · intro i var declared
    have member := List.mem_of_getElem? declared
    rw [model.vars] at member
    obtain ⟨copy, inCopies, rfl⟩ := List.mem_map.mp member
    obtain ⟨side, name, used⟩ := exists_side_of_mem_copiesUsed (mem_firstByName inCopies)
    have value : v copy.1 = side.pick x y copy.2 := by
      rw [name]
      exact reads side copy.2 (told.known used)
    have inRange : InRange c copy.2 (side.pick x y copy.2) := by
      cases side with
      | first => exact conflict.first copy.2 used
      | second => exact conflict.second copy.2 used
    rw [declared, Option.map_some, Option.getD_some]
    refine ⟨fun lo present => ?_, fun hi present => ?_⟩
    · exact (inRange.lower lo present).trans_eq value.symm
    · exact (value.trans_le (inRange.upper hi present))
  · intro i name last
    obtain ⟨var, declared, rfl⟩ := Option.map_eq_some_iff.mp last.1
    simp [declared]
  · intro constraint member
    rw [model.constraints] at member
    obtain ⟨p, inZip, lhs, rhs⟩ := mem_constraintsOf member
    obtain ⟨k, here⟩ := List.mem_iff_getElem?.mp inZip
    obtain ⟨left, right⟩ := List.getElem?_zip_eq_some.mp here
    rw [Linear.Constraint.Holds, lhs, rhs, Affine.value_linear, Affine.value_linear]
    have first : (p.1.value fun iv => v (copyName c.function .first iv)) = p.1.value x :=
      Affine.value_congr fun coeff used =>
        reads .first coeff.iv (told.first _ (MemoryAccess.mem_variables (List.mem_of_getElem? left) used))
    have second : (p.2.value fun iv => v (copyName c.function .second iv)) = p.2.value y :=
      Affine.value_congr fun coeff used =>
        reads .second coeff.iv (told.second _ (MemoryAccess.mem_variables (List.mem_of_getElem? right) used))
    rw [first, second]
    exact conflict.equal k p.1 p.2 left right

theorem ModelOf.nodup_names (model : ModelOf c (a.equations.zip b.equations) m) : (m.vars.map Linear.Var.name).Nodup := by
  have names : m.vars.map Linear.Var.name =
      (firstByName (copiesUsed c.function (a.equations.zip b.equations))).map Prod.fst := by
    rw [model.vars, List.map_map]
    rfl
  rw [names]
  exact nodup_firstByName _

/-- Every variable that a side uses has its copy, with its own range. -/
theorem ModelOf.exists_declared (model : ModelOf c (a.equations.zip b.equations) m) (told : Told c a b)
    (same : a.equations.length = b.equations.length) {side : Side} {iv : InductionVariable}
    (used : iv ∈ (side.pick a b).variables) :
    ∃ i, m.vars[i]? = some (copyVar c (copyName c.function side iv, iv)) ∧
      m.IsLast i (copyName c.function side iv) := by
  obtain ⟨copy, inCopies, name⟩ := exists_mem_firstByName (mem_copiesUsed (f := c.function) same used)
  obtain ⟨side', name', used'⟩ := exists_side_of_mem_copiesUsed (mem_firstByName inCopies)
  obtain ⟨rfl, rfl⟩ := copyName_injective told.named (told.known used') (told.known used) (name'.symm.trans name)
  obtain ⟨i, here⟩ := List.mem_iff_getElem?.mp inCopies
  have declared : m.vars[i]? = some (copyVar c (copyName c.function side' copy.2, copy.2)) := by
    rw [model.vars, List.getElem?_map, here, Option.map_some, ← name']
  refine ⟨i, declared, by rw [declared]; rfl, fun j later again => ?_⟩
  have positions : (m.vars.map Linear.Var.name)[i]? = (m.vars.map Linear.Var.name)[j]? := by
    rw [List.getElem?_map, List.getElem?_map, again, declared]
    rfl
  have inside : i < (m.vars.map Linear.Var.name).length := by
    rw [List.length_map]
    exact (List.getElem?_eq_some_iff.mp declared).1
  exact absurd ((List.getElem?_inj inside model.nodup_names).mp positions) later.ne

/-- A solution of the model is a conflict. -/
theorem ModelOf.conflict (model : ModelOf c (a.equations.zip b.equations) m) (told : Told c a b)
    (same : a.equations.length = b.equations.length) {values : Nat → Int} {v : String → Int}
    (solution : m.Solution values v) :
    Conflict c a b (fun iv => v (copyName c.function .first iv)) fun iv => v (copyName c.function .second iv) := by
  have inRange : ∀ (side : Side), ∀ iv ∈ (side.pick a b).variables, InRange c iv (v (copyName c.function side iv)) := by
    intro side iv used
    obtain ⟨i, declared, last⟩ := model.exists_declared told same used
    have admitted := solution.admitted i _ declared
    rw [solution.denoted i _ last]
    exact ⟨admitted.lower, admitted.upper⟩
  refine ⟨⟨inRange .first, inRange .second⟩, fun k e e' left right => ?_⟩
  have inZip : (e, e') ∈ a.equations.zip b.equations :=
    List.mem_of_getElem? (List.getElem?_zip_eq_some.mpr ⟨left, right⟩)
  obtain ⟨constraint, member, lhs, rhs⟩ := exists_mem_constraintsOf (f := c.function) inZip
  have holds := solution.holds constraint (model.constraints ▸ member)
  rwa [Linear.Constraint.Holds, lhs, rhs, Affine.value_linear, Affine.value_linear] at holds

end

end LoopConflict.Access
