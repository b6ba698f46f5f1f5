import LoopConflict.Program.Dominance
import LoopConflict.Program.Text

/-!
What functions in static single assignment form obey beside their shape. The result of an instruction is
named by a register, the letter t and a number, and no register is given out twice; `PhisNamed` says
this of the phis. Where a value is used it has been computed on every way there (`definitionsDominate`).
In a well-formed function this comes with a control flow graph that control can get through everywhere,
phis with a value for each predecessor, and integers that are computed from integers (`WellFormed`); for the last
alone there is `integersTyped`.
-/
namespace LoopConflict.Program

/-! ### Registers -/

/-- The letter t and digits. -/
def isRegister (name : String) : Bool :=
  match name.toList with
  | 't' :: digits => digits.all Char.isDigit
  | _ => false

/-- The place is that of a phi. -/
def Function.IsPhi (f : Function) (p : Place) : Prop :=
  ∃ edges comment, f.operation? p = some (.phi edges comment)

/-- The places of all phis. -/
def Function.phis (f : Function) : List Place :=
  f.places.filter fun p =>
    match f.operation? p with
    | some (.phi _ _) => true
    | _ => false

/-- The results of phis are named by registers of their own. -/
structure Function.PhisNamed (f : Function) : Prop where
  register : ∀ p ∈ f.phis, isRegister (f.nameOf (.result p)) = true
  distinct : (f.phis.map fun p => f.nameOf (.result p)).Nodup

theorem exists_digits_of_isRegister {name : String} (register : isRegister name = true) :
    ∃ digits, name.toList = 't' :: digits ∧ ∀ d ∈ digits, d.isDigit = true := by
  unfold isRegister at register
  split at register
  · rename_i digits form
    exact ⟨digits, form, fun d member => List.all_eq_true.mp register d member⟩
  · cases register

theorem Function.mem_places_iff {f : Function} {p : Place} : p ∈ f.places ↔ (f.instruction? p).isSome = true := by
  obtain ⟨b, i⟩ := p
  simp only [Function.places, Function.placesOf, List.mem_flatMap, List.mem_range, List.mem_map,
    Place.mk.injEq, Function.instruction?]
  constructor
  · rintro ⟨b', inside, i', here, rfl, rfl⟩
    rw [List.getElem?_eq_getElem inside, Option.map_some, Option.getD_some] at here
    rw [List.getElem?_eq_getElem inside]
    simpa using here
  · intro some
    rcases Nat.lt_or_ge b f.blocks.length with inside | outside
    · refine ⟨b, inside, i, ?_, rfl, rfl⟩
      rw [List.getElem?_eq_getElem inside] at some ⊢
      simpa using some
    · rw [List.getElem?_eq_none outside] at some
      cases some

theorem Function.IsPhi.mem_phis {f : Function} {p : Place} (phi : f.IsPhi p) : p ∈ f.phis := by
  obtain ⟨edges, comment, phi⟩ := phi
  refine List.mem_filter.mpr ⟨Function.mem_places_iff.mpr ?_, by rw [phi]⟩
  obtain ⟨instruction, found, _⟩ := Option.map_eq_some_iff.mp phi
  rw [found]
  rfl

/-! ### Definitions -/

namespace Function

variable (f : Function)

/-- The instruction at `q` has been run whenever the one at `p` is: it stands before it in its block, or
    in a block that dominates it. -/
def precedes (q p : Place) : Bool :=
  if q.block = p.block then q.index < p.index else f.dominates q.block p.block

/-- The operands of the instruction at `p` have been computed when it runs. A phi takes its operands at
    the end of its predecessors. -/
def operandsDefined (p : Place) : Bool :=
  match f.operation? p with
  | none => true
  | some (.phi edges _) =>
    ((f.preds p.block).zip edges).all fun e => e.2.place?.all fun q => f.places.contains q && f.dominates q.block e.1
  | some operation => operation.operands.all fun v => v.place?.all fun q => f.places.contains q && f.precedes q p

/-- Definitions dominate their uses. -/
def definitionsDominate : Bool :=
  f.places.all f.operandsDefined

/-! ### Well-formed functions -/

/-- Predecessors and successors are the two ends of the same edges. -/
def edgesAgree : Bool :=
  f.blockIds.all fun b =>
    ((f.succs b).all fun s => f.blockIds.contains s && (f.preds s).contains b) &&
      (f.preds b).all fun p => (f.succs p).contains b

/-- Control can get to every block. -/
def allReached : Bool :=
  let reached := Graph.explore f.succs f.blockIds f.roots
  f.blockIds.all reached.contains

/-- Predecessors and successors are the two ends of the same edges, and control can get to every block. -/
structure Connected : Prop where
  edges : f.edgesAgree = true
  reached : f.allReached = true

/-- A phi has one value for each predecessor, and control comes to it from one of them. -/
def phiFits (p : Place) : Bool :=
  match f.operation? p with
  | some (.phi edges _) => edges.length == (f.preds p.block).length && !f.roots.contains p.block
  | _ => true

/-- An integer is computed from integers, and an address from something else. -/
def operandsTyped (p : Place) : Bool :=
  let integers (operands : List Value) : Bool := !f.isInteger (.result p) || operands.all f.isInteger
  match f.operation? p with
  | some (.phi edges _) => integers edges
  | some (.binary .add x y) => integers [x, y]
  | some (.binary .sub x y) => integers [x, y]
  | some (.binary .mul x y) => integers [x, y]
  | some (.binary .shl x _) => integers [x]
  | some (.changeType x) => integers [x]
  | some (.indexAddress x _) => !f.isInteger x
  | some (.fieldAddress x _) => !f.isInteger x
  | _ => true

/-- The operands that are integers if the result is one. -/
def integerOperands (operation : Operation) : List Value :=
  match operation with
  | .phi edges _ => edges
  | .binary .add x y => [x, y]
  | .binary .sub x y => [x, y]
  | .binary .mul x y => [x, y]
  | .binary .shl x _ => [x]
  | .changeType x => [x]
  | _ => []

/-- Integers are computed from integers. -/
def integersTyped : Bool :=
  f.places.all fun p => !f.isInteger (.result p) || ((f.operation? p).map integerOperands).all (·.all f.isInteger)

structure WellFormed : Prop where
  edges : f.edgesAgree = true
  reached : f.allReached = true
  phis : f.places.all f.phiFits = true
  types : f.places.all f.operandsTyped = true
  definitions : f.definitionsDominate = true

variable {f} in
theorem WellFormed.connected (wf : f.WellFormed) : f.Connected :=
  ⟨wf.edges, wf.reached⟩

variable {f} in
theorem WellFormed.integersTyped (wf : f.WellFormed) : f.integersTyped = true := by
  refine List.all_eq_true.mpr fun p member => ?_
  have typed := List.all_eq_true.mp wf.types p member
  cases here : f.operation? p with
  | none => simp
  | some operation =>
    unfold operandsTyped at typed
    rw [here] at typed
    cases operation with
    | binary op x y => cases op <;> simp_all [integerOperands]
    | _ => simp_all [integerOperands]

end Function

end LoopConflict.Program
