import LoopConflict.Proofs.Access.Conflict
import LoopConflict.Proofs.Access.Grouping
import LoopConflict.Proofs.Evolution.Mirroring

/-!
Accesses with other numbers for unknown values. The expressions in what is found out about accesses get other numbers
(`renumber`). Recorded expressions stay different, so variables are found by the same recurrences and accesses fall
into the same groups. Models have no expressions in them: they are the same.
-/
namespace LoopConflict.Access

open Loop (Forest LoopId)
open Program (Function Place Value)
open Evolution (Expr Context)

section

variable {ε ε' α α' : Type}

/-- Changes the error or the answer. -/
def changeBoth (onError : ε → ε') (onAnswer : α → α') : Except ε α → Except ε' α'
  | .error e => .error (onError e)
  | .ok a => .ok (onAnswer a)

/-- What is listed of the error or of the answer. -/
def listBoth (ofError : ε → List α') (ofAnswer : α → List α') : Except ε α → List α'
  | .error e => ofError e
  | .ok a => ofAnswer a

theorem map_eq_self {f : α → α} {items : List α} (own : ∀ x ∈ items, f x = x) : items.map f = items :=
  (List.map_congr_left own).trans (List.map_id items)

end

/-- Each of the expressions has the property. -/
def Each (P : Expr → Prop) (es : List Expr) : Prop :=
  ∀ e ∈ es, P e

section

variable {P Q : Expr → Prop} {e : Expr} {es es' : List Expr}

@[simp]
theorem each_nil : Each P [] := by
  simp [Each]

@[simp]
theorem each_cons : Each P (e :: es) ↔ P e ∧ Each P es :=
  List.forall_mem_cons

@[simp]
theorem each_append : Each P (es ++ es') ↔ Each P es ∧ Each P es' :=
  List.forall_mem_append

theorem Each.of_flatMap {α : Type} {exprs : α → List Expr} {items : List α} (each : Each P (items.flatMap exprs)) {x : α}
    (member : x ∈ items) : Each P (exprs x) :=
  fun e inside => each e (List.mem_flatMap.mpr ⟨x, member, inside⟩)

end

/-- All of the expressions are recorded. -/
abbrev RecordsAll (c : Context) (es : List Expr) : Prop :=
  Each c.Records es

/-- The numbers of the expressions are the given ones already. -/
abbrev Numbered (number : Value → Nat) (es : List Expr) : Prop :=
  Each (fun e => e.renumber number = e) es

theorem Each.later {c c' : Context} {es : List Expr} (recorded : RecordsAll c es) (later : c.Before c') :
    RecordsAll c' es :=
  fun e member => later.records e (recorded e member)

variable {F : Forest} {number : Value → Nat} {c : Context}

/-! ### Variables -/

namespace InductionVariable

def renumber (number : Value → Nat) (iv : InductionVariable) : InductionVariable :=
  ⟨iv.phi, iv.loop, iv.start.renumber number, iv.step.renumber number⟩

@[simp]
theorem recurrence_renumber (iv : InductionVariable) :
    (iv.renumber number).recurrence = iv.recurrence.renumber number := by
  rw [recurrence, recurrence, Expr.renumber]
  rfl

@[simp]
theorem name_renumber (f : Function) (iv : InductionVariable) : (iv.renumber number).name f = iv.name f :=
  rfl

theorem renumber_inj (filed : c.Filed F True) {iv iv' : InductionVariable} (recorded : c.Records iv.recurrence)
    (recorded' : c.Records iv'.recurrence) : iv.renumber number = iv'.renumber number ↔ iv = iv' := by
  refine ⟨fun same => ?_, fun same => by rw [same]⟩
  have renumbered : iv.recurrence.renumber number = iv'.recurrence.renumber number := by
    rw [← recurrence_renumber, same, recurrence_renumber]
  have recurrences := (filed.renumber_inj recorded recorded').mp renumbered
  obtain ⟨phi, loop, start, step⟩ := iv
  obtain ⟨phi', loop', start', step'⟩ := iv'
  simp only [recurrence, Expr.recur.injEq] at recurrences
  obtain ⟨rfl, rfl, rfl⟩ := recurrences
  simp only [renumber, mk.injEq] at same
  rw [same.1]

theorem renumber_eq_self {iv : InductionVariable} (own : iv.recurrence.renumber number = iv.recurrence) :
    iv.renumber number = iv := by
  rw [recurrence, Expr.renumber] at own
  obtain ⟨_, start, step⟩ := Expr.recur.inj own
  rw [renumber, start, step]

end InductionVariable

theorem asVariable?_renumber (l : LoopId) (phi : Place) (e : Expr) :
    asVariable? l phi (e.renumber number) = (asVariable? l phi e).map (·.renumber number) := by
  cases e with
  | recur m start step =>
    by_cases same : m = l
    · simp [asVariable?, same, InductionVariable.renumber]
    · simp [asVariable?, same]
  | _ => rfl

namespace Variables

theorem ofLoop?_renumber (ivs : Variables) (l : LoopId) :
    ofLoop? (ivs.map (·.renumber number)) l = (ofLoop? ivs l).map (·.renumber number) := by
  rw [ofLoop?, ofLoop?, List.find?_map]
  rfl

theorem withRecurrence?_renumber (filed : c.Filed F True) {ivs : Variables} (recorded : ∀ iv ∈ ivs, c.Records iv.recurrence)
    {e : Expr} (isE : c.Records e) :
    withRecurrence? (ivs.map (·.renumber number)) (e.renumber number) =
      (withRecurrence? ivs e).map (·.renumber number) := by
  induction ivs with
  | nil => rfl
  | cons iv rest ih =>
    have same : iv.recurrence.renumber number = e.renumber number ↔ iv.recurrence = e :=
      filed.renumber_inj (recorded iv (by simp)) isE
    have others := ih fun iv member => recorded iv (by simp [member])
    simp only [withRecurrence?, List.map_cons, List.find?_cons, InductionVariable.recurrence_renumber] at others ⊢
    by_cases here : iv.recurrence = e
    · simp [here]
    · rw [beq_eq_false_iff_ne.mpr here, beq_eq_false_iff_ne.mpr (same.not.mpr here)]
      exact others

end Variables

/-! ### Affine forms -/

def Coefficient.renumber (number : Value → Nat) (k : Coefficient) : Coefficient :=
  ⟨k.iv.renumber number, k.value⟩

def Affine.renumber (number : Value → Nat) (a : Affine) : Affine :=
  ⟨a.coeffs.map (·.renumber number), a.const⟩

def AffineError.renumber (number : Value → Nat) : AffineError → AffineError
  | .noVariable l => .noVariable l
  | .notMultiple step divisor => .notMultiple (step.renumber number) (divisor.renumber number)
  | .notConstant coefficient iv => .notConstant (coefficient.renumber number) (iv.renumber number)
  | .remains rest => .remains (rest.renumber number)

/-- The recurrences of the variables of an affine form. -/
def Affine.exprs (a : Affine) : List Expr :=
  a.coeffs.map (·.iv.recurrence)

/-- The expressions that an error is about. -/
def AffineError.exprs : AffineError → List Expr
  | .noVariable _ => []
  | .notMultiple step divisor => [step, divisor]
  | .notConstant coefficient iv => [coefficient, iv.recurrence]
  | .remains rest => [rest]

theorem Affine.renumber_eq_self {a : Affine} (own : Numbered number a.exprs) : a.renumber number = a := by
  have coeffs : a.coeffs.map (·.renumber number) = a.coeffs := by
    refine map_eq_self fun k member => ?_
    rw [Coefficient.renumber, InductionVariable.renumber_eq_self (own _ (List.mem_map_of_mem member))]
  rw [renumber, coeffs]

theorem AffineError.renumber_eq_self {e : AffineError} (own : Numbered number e.exprs) : e.renumber number = e := by
  cases e with
  | noVariable l => rfl
  | notMultiple step divisor => rw [renumber, own step (by simp [exprs]), own divisor (by simp [exprs])]
  | notConstant coefficient iv =>
    rw [renumber, own coefficient (by simp [exprs]), InductionVariable.renumber_eq_self (own _ (by simp [exprs]))]
  | remains rest => rw [renumber, own rest (by simp [exprs])]

theorem AffineError.message_renumber {c' : Context} (filed : c.Filed F True) (filed' : c'.Filed F True)
    {e : AffineError} (recorded : ∀ x ∈ e.exprs, c.Records x) (recorded' : ∀ x ∈ (e.renumber number).exprs, c'.Records x) :
    (e.renumber number).message c' = e.message c := by
  have text : ∀ x ∈ e.exprs, c'.Records (x.renumber number) → (x.renumber number).text c' = x.text c :=
    fun x member => Evolution.text_renumber filed filed' (recorded x member)
  unfold message
  cases e with
  | noVariable l => dsimp only [renumber]; rw [filed.forest, filed'.forest]
  | notMultiple step divisor =>
    have first := text step (by simp [exprs]) (recorded' _ (by simp [renumber, exprs]))
    have second := text divisor (by simp [exprs]) (recorded' _ (by simp [renumber, exprs]))
    dsimp only [renumber]
    rw [first, second]
  | notConstant coefficient iv =>
    have first := text coefficient (by simp [exprs]) (recorded' _ (by simp [renumber, exprs]))
    dsimp only [renumber]
    rw [first, InductionVariable.name_renumber, Context.function, Context.function, filed.forest, filed'.forest]
  | remains rest =>
    have first := text rest (by simp [exprs]) (recorded' _ (by simp [renumber, exprs]))
    dsimp only [renumber]
    rw [first]

theorem renumber_eq_const {e : Expr} {n : Int64} : e.renumber number = .const n ↔ e = .const n := by
  cases e <;> simp

/-- What one peeling gives, with other numbers. -/
def renumberPeeled (number : Value → Nat) :
    Except AffineError (Coefficient × Expr) → Except AffineError (Coefficient × Expr) :=
  changeBoth (·.renumber number) fun p => (p.1.renumber number, p.2.renumber number)

/-- The affine form or the error with other numbers. -/
def renumberForm (number : Value → Nat) : Except AffineError Affine → Except AffineError Affine :=
  changeBoth (·.renumber number) (·.renumber number)

/-- The expressions of the affine form or of the error. -/
def formExprs : Except AffineError Affine → List Expr :=
  listBoth AffineError.exprs Affine.exprs

/-! ### Models -/

theorem linear_renumber {name : InductionVariable → String} (same : ∀ iv, name (iv.renumber number) = name iv) (a : Affine) :
    (a.renumber number).linear name = a.linear name := by
  simp [Affine.linear, Affine.renumber, Coefficient.renumber, same]

theorem copyName_renumber (f : Function) (side : Side) (iv : InductionVariable) :
    copyName f side (iv.renumber number) = copyName f side iv :=
  rfl

/-- Equal indices with other numbers. -/
def renumberIndices (number : Value → Nat) (p : Affine × Affine) : Affine × Affine :=
  (p.1.renumber number, p.2.renumber number)

theorem constraintsOf_renumber (f : Function) (indices : List (Affine × Affine)) :
    constraintsOf f (indices.map (renumberIndices number)) = constraintsOf f indices := by
  rw [constraintsOf, constraintsOf, List.zipIdx_map, List.map_map]
  refine List.map_congr_left fun p _ => ?_
  simp only [Function.comp_apply, Prod.map, renumberIndices, linear_renumber (copyName_renumber f _), id]

/-- A copy of a variable with other numbers. -/
def renumberCopy (number : Value → Nat) (copy : String × InductionVariable) : String × InductionVariable :=
  (copy.1, copy.2.renumber number)

theorem copiesUsed_renumber (f : Function) (indices : List (Affine × Affine)) :
    copiesUsed f (indices.map (renumberIndices number)) = (copiesUsed f indices).map (renumberCopy number) := by
  simp only [copiesUsed, List.flatMap_map, List.map_flatMap]
  refine List.flatMap_congr fun p _ => ?_
  simp only [renumberIndices, Affine.renumber, List.map_append, List.map_map]
  rfl

theorem firstByName_renumber (copies : List (String × InductionVariable)) :
    firstByName (copies.map (renumberCopy number)) = (firstByName copies).map (renumberCopy number) := by
  induction copies using List.reverseRecOn with
  | nil => rfl
  | append_singleton copies copy ih =>
    have named : ((firstByName copies).map (renumberCopy number)).any (·.1 == (renumberCopy number copy).1) =
        (firstByName copies).any (·.1 == copy.1) := by
      rw [List.any_map]
      rfl
    rw [List.map_append, List.map_singleton, firstByName_append, firstByName_append, ih, named]
    split <;> simp

/-- The recurrences of copies of variables. -/
def copyExprs (copies : List (String × InductionVariable)) : List Expr :=
  copies.map (·.2.recurrence)

theorem base_renumber_eq_self {base : Option Expr} (own : Numbered number base.toList) :
    base.map (·.renumber number) = base := by
  cases base with
  | none => rfl
  | some e => rw [Option.map_some, own e (by simp)]

namespace MemoryAccess

def renumber (number : Value → Nat) (a : MemoryAccess) : MemoryAccess :=
  { a with base := a.base.map (·.renumber number), equations := a.equations.map (·.renumber number) }

/-- The base, and the recurrences of the variables. -/
def exprs (a : MemoryAccess) : List Expr :=
  a.base.toList ++ a.equations.flatMap Affine.exprs

theorem renumber_eq_self {a : MemoryAccess} (own : Numbered number a.exprs) : a.renumber number = a := by
  obtain ⟨isBase, isEquations⟩ := each_append.mp own
  have equations : a.equations.map (·.renumber number) = a.equations :=
    map_eq_self fun x member => Affine.renumber_eq_self (isEquations.of_flatMap member)
  rw [renumber, base_renumber_eq_self isBase, equations]

end MemoryAccess

/-- A pair of accesses with other numbers. -/
def renumberAccesses (number : Value → Nat) (p : MemoryAccess × MemoryAccess) : MemoryAccess × MemoryAccess :=
  (p.1.renumber number, p.2.renumber number)

/-- The expressions of pairs of accesses. -/
def accessExprs (p : MemoryAccess × MemoryAccess) : List Expr :=
  p.1.exprs ++ p.2.exprs

theorem equalIndices_renumber (pairs : List (MemoryAccess × MemoryAccess)) :
    equalIndices (pairs.map (renumberAccesses number)) = (equalIndices pairs).map (renumberIndices number) := by
  simp only [equalIndices, List.flatMap_map, List.map_flatMap]
  refine List.flatMap_congr fun p _ => ?_
  exact List.zip_map

/-- The recurrences of the copies that are declared are among those of the accesses. -/
theorem recordsAll_copies {pairs : List (MemoryAccess × MemoryAccess)} (f : Function)
    (recorded : RecordsAll c (pairs.flatMap accessExprs)) :
    RecordsAll c (copyExprs (firstByName (copiesUsed f (equalIndices pairs)))) := by
  intro e member
  obtain ⟨copy, declared, rfl⟩ := List.mem_map.mp member
  obtain ⟨⟨x, y⟩, isIndex, used⟩ := List.mem_flatMap.mp (mem_firstByName declared)
  obtain ⟨⟨a, b⟩, isPair, together⟩ := List.mem_flatMap.mp isIndex
  obtain ⟨inA, inB⟩ := List.of_mem_zip together
  refine recorded _ (List.mem_flatMap.mpr ⟨_, isPair, ?_⟩)
  rcases List.mem_append.mp used with first | second
  · obtain ⟨k, isCoeff, rfl⟩ := List.mem_map.mp first
    refine List.mem_append_left _ (List.mem_append_right _ (List.mem_flatMap.mpr ⟨x, inA, ?_⟩))
    exact List.mem_map_of_mem isCoeff
  · obtain ⟨k, isCoeff, rfl⟩ := List.mem_map.mp second
    refine List.mem_append_right _ (List.mem_append_right _ (List.mem_flatMap.mpr ⟨y, inB, ?_⟩))
    exact List.mem_map_of_mem isCoeff

/-! ### Groups -/

def Group.renumber (number : Value → Nat) (g : Group) : Group :=
  ⟨g.base.map (·.renumber number), g.members.map (·.renumber number)⟩

def ArityMismatch.renumber (number : Value → Nat) (e : ArityMismatch) : ArityMismatch :=
  ⟨e.a.renumber number, e.b.renumber number⟩

/-- The base of a group and the expressions of its members. -/
def Group.exprs (g : Group) : List Expr :=
  g.base.toList ++ g.members.flatMap MemoryAccess.exprs

def ArityMismatch.exprs (e : ArityMismatch) : List Expr :=
  e.a.exprs ++ e.b.exprs

theorem Group.renumber_eq_self {g : Group} (own : Numbered number g.exprs) : g.renumber number = g := by
  obtain ⟨isBase, isMembers⟩ := each_append.mp own
  have members : g.members.map (·.renumber number) = g.members :=
    map_eq_self fun a member => MemoryAccess.renumber_eq_self (isMembers.of_flatMap member)
  rw [renumber, base_renumber_eq_self isBase, members]

theorem ArityMismatch.renumber_eq_self {e : ArityMismatch} (own : Numbered number e.exprs) : e.renumber number = e := by
  obtain ⟨isA, isB⟩ := each_append.mp own
  rw [renumber, MemoryAccess.renumber_eq_self isA, MemoryAccess.renumber_eq_self isB]

theorem base_renumber_inj (filed : c.Filed F True) {b b' : Option Expr} (recorded : RecordsAll c b.toList)
    (recorded' : RecordsAll c b'.toList) : b.map (·.renumber number) = b'.map (·.renumber number) ↔ b = b' := by
  cases b with
  | none => cases b' <;> simp
  | some e =>
    cases b' with
    | none => simp
    | some e' => simpa using filed.renumber_inj (recorded e (by simp)) (recorded' e' (by simp))

theorem addToGroup_renumber (filed : c.Filed F True) {a : MemoryAccess} (isA : RecordsAll c a.base.toList)
    {groups : List Group} (recorded : ∀ g ∈ groups, RecordsAll c g.base.toList) :
    addToGroup (a.renumber number) (groups.map (·.renumber number)) =
      (addToGroup a groups).map (·.renumber number) := by
  induction groups with
  | nil => rfl
  | cons g rest ih =>
    have same : g.base.map (·.renumber number) = a.base.map (·.renumber number) ↔ g.base = a.base :=
      base_renumber_inj filed (recorded g (by simp)) isA
    have others := ih fun g member => recorded g (by simp [member])
    simp only [List.map_cons, addToGroup, Group.renumber, MemoryAccess.renumber, same] at others ⊢
    by_cases here : g.base = a.base
    · simp [here]
    · simp [here, others]

theorem recordsAll_groups {accesses : List MemoryAccess} (recorded : RecordsAll c (accesses.flatMap MemoryAccess.exprs)) :
    ∀ g ∈ groupByBase accesses, RecordsAll c g.exprs := by
  intro g member e inside
  rcases List.mem_append.mp inside with isBase | isMember
  · have known : g.base ∈ (groupByBase accesses).map (·.base) := List.mem_map_of_mem member
    rw [map_base_groupByBase, List.mem_eraseDups] at known
    obtain ⟨a, isAccess, same⟩ := List.mem_map.mp known
    refine recorded e (List.mem_flatMap.mpr ⟨a, isAccess, List.mem_append_left _ ?_⟩)
    rw [same]
    exact isBase
  · obtain ⟨a, isMember, inside⟩ := List.mem_flatMap.mp isMember
    exact recorded e (List.mem_flatMap.mpr ⟨a, ((mem_members_iff member).mp isMember).1, inside⟩)

theorem groupByBase_renumber (filed : c.Filed F True) {accesses : List MemoryAccess}
    (recorded : RecordsAll c (accesses.flatMap MemoryAccess.exprs)) :
    groupByBase (accesses.map (·.renumber number)) = (groupByBase accesses).map (·.renumber number) := by
  induction accesses using List.reverseRecOn with
  | nil => rfl
  | append_singleton accesses a ih =>
    have earlier : RecordsAll c (accesses.flatMap MemoryAccess.exprs) := fun e member => recorded e (by simp [member])
    rw [List.map_append, List.map_singleton, groupByBase_append, groupByBase_append, ih earlier]
    refine addToGroup_renumber filed (fun e member => recorded e ?_) fun g member e inside => ?_
    · simp [MemoryAccess.exprs, Option.mem_toList.mp member]
    · exact recordsAll_groups earlier g member e (List.mem_append_left _ inside)

theorem orderedPairs_map {α β : Type} (f : α → β) (items : List α) :
    orderedPairs (items.map f) = (orderedPairs items).map (Prod.map f f) := by
  induction items with
  | nil => rfl
  | cons a rest ih =>
    simp only [List.map_cons, orderedPairs, ih, List.map_append, List.map_map]
    rfl

theorem conflicting_renumber (accesses : List MemoryAccess) :
    conflicting (accesses.map (·.renumber number)) = (conflicting accesses).map (renumberAccesses number) := by
  rw [conflicting, conflicting, orderedPairs_map, List.filter_map]
  rfl

namespace Group

variable {g : Group}

theorem pairs_renumber (g : Group) :
    (g.renumber number).pairs =
      changeBoth (·.renumber number) (List.map (renumberAccesses number)) g.pairs := by
  unfold pairs
  dsimp only [renumber]
  have arity : ((fun p : MemoryAccess × MemoryAccess => decide (p.1.equations.length ≠ p.2.equations.length)) ∘
      renumberAccesses number) = fun p => decide (p.1.equations.length ≠ p.2.equations.length) := by
    funext p
    simp [renumberAccesses, MemoryAccess.renumber]
  rw [conflicting_renumber, List.find?_map, arity]
  cases (conflicting g.members).find? fun p => decide (p.1.equations.length ≠ p.2.equations.length) with
  | none => rfl
  | some p => rfl

theorem recordsAll_pairs (recorded : RecordsAll c g.exprs) :
    RecordsAll c (listBoth ArityMismatch.exprs (List.flatMap accessExprs) g.pairs) := by
  have members : ∀ a ∈ g.members, RecordsAll c a.exprs := fun a member e inside =>
    recorded e (List.mem_append_right _ (List.mem_flatMap.mpr ⟨a, member, inside⟩))
  have both : ∀ {a b : MemoryAccess}, a ∈ g.members → b ∈ g.members → RecordsAll c (a.exprs ++ b.exprs) :=
    fun first second e inside => (List.mem_append.mp inside).elim (members _ first e) (members _ second e)
  cases paired : g.pairs with
  | error e =>
    rcases g.pairs_cases with ⟨_, all⟩ | ⟨_, e', failed, _, _, here, _⟩
    · rw [all] at paired
      cases paired
    · rw [failed] at paired
      cases paired
      exact both (List.mem_of_getElem? here.1) (List.mem_of_getElem? here.2)
  | ok pairs =>
    intro e inside
    obtain ⟨p, member, inside⟩ := List.mem_flatMap.mp inside
    obtain ⟨first, second, _⟩ := mem_of_pairs paired member
    exact both first second e inside

end Group

end LoopConflict.Access
