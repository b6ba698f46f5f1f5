import LoopConflict.Proofs.Program.Dominance
import LoopConflict.Proofs.Program.WellFormed
import Mathlib.Data.Set.Finite.Basic

/-!
Which values have been computed when control is at a place, on whatever way it came there (`Available`).
In a well-formed function the operands of an instruction are available where it runs, and so they are
wherever its result is (`WellFormed.available_operand`).
-/
namespace LoopConflict.Program

namespace Function

variable {f : Function}

/-! ### What is well formed -/

theorem operation?_eq_some_iff {p : Place} {operation : Operation} :
    f.operation? p = some operation ↔ ∃ instruction, f.instruction? p = some instruction ∧ instruction.operation = operation :=
  Option.map_eq_some_iff

theorem mem_places_of_operation? {p : Place} {operation : Operation} (found : f.operation? p = some operation) :
    p ∈ f.places := by
  obtain ⟨instruction, here, _⟩ := operation?_eq_some_iff.mp found
  exact mem_places_iff.mpr (by rw [here]; rfl)

theorem isInteger_operand (typed : f.integersTyped = true) {p : Place} {operation : Operation}
    (here : f.operation? p = some operation) (integer : f.isInteger (.result p) = true) {v : Value}
    (member : v ∈ integerOperands operation) : f.isInteger v = true := by
  have all := List.all_eq_true.mp typed p (mem_places_of_operation? here)
  simp only [integer, here, Bool.not_true, Bool.false_or, Option.map_some, Option.all_some, List.all_eq_true] at all
  exact all v member

theorem exists_operation? {p : Place} (place : p ∈ f.places) : ∃ operation, f.operation? p = some operation := by
  obtain ⟨instruction, found⟩ := Option.isSome_iff_exists.mp (mem_places_iff.mp place)
  exact ⟨instruction.operation, by rw [operation?, found, Option.map_some]⟩

theorem nodup_places (f : Function) : f.places.Nodup := by
  refine List.nodup_flatMap.mpr ⟨fun b _ => ?_, ?_⟩
  · exact List.nodup_range.map fun i j same => congrArg Place.index same
  · refine List.nodup_range.imp fun {b b'} other p inside inside' => other ?_
    obtain ⟨i, _, rfl⟩ := List.mem_map.mp inside
    obtain ⟨j, _, same⟩ := List.mem_map.mp inside'
    exact (congrArg Place.block same).symm

theorem exists_place {v : Value} {operation : Operation} (defined : f.definition? v = some operation) :
    ∃ p, v = .result p ∧ f.operation? p = some operation := by
  cases v with
  | result p => exact ⟨p, rfl, defined⟩
  | _ => cases defined

theorem not_isPhi_of_operation? {p : Place} {operation : Operation} (found : f.operation? p = some operation)
    (other : ∀ edges comment, operation ≠ .phi edges comment) : ¬ f.IsPhi p := by
  rintro ⟨edges, comment, phi⟩
  rw [found] at phi
  exact other edges comment (Option.some.inj phi)

/-- Only blocks of the function have successors. -/
theorem mem_blockIds_of_mem_succs {b s : Nat} (edge : s ∈ f.succs b) : b ∈ f.blockIds := by
  by_contra outside
  rw [mem_blockIds, not_lt] at outside
  simp [succs, List.getElem?_eq_none outside] at edge

theorem mem_blockIds_of_mem_preds {b p : Nat} (edge : p ∈ f.preds b) : b ∈ f.blockIds := by
  by_contra outside
  rw [mem_blockIds, not_lt] at outside
  simp [preds, List.getElem?_eq_none outside] at edge

theorem mem_blockIds_of_mem_places {p : Place} (here : p ∈ f.places) : p.block ∈ f.blockIds := by
  obtain ⟨b, inside, member⟩ := List.mem_flatMap.mp here
  obtain ⟨i, _, rfl⟩ := List.mem_map.mp member
  exact inside

namespace Connected

variable (flow : f.Connected)
include flow

theorem mem_succs_iff {b s : Nat} : s ∈ f.succs b ↔ b ∈ f.preds s := by
  have agree := List.all_eq_true.mp flow.edges
  constructor
  · intro edge
    have here := agree b (mem_blockIds_of_mem_succs edge)
    rw [Bool.and_eq_true, List.all_eq_true] at here
    have there := here.1 s edge
    rw [Bool.and_eq_true, List.contains_iff_mem, List.contains_iff_mem] at there
    exact there.2
  · intro edge
    have here := agree s (mem_blockIds_of_mem_preds edge)
    rw [Bool.and_eq_true, List.all_eq_true, List.all_eq_true] at here
    exact List.contains_iff_mem.mp (here.2 b edge)

theorem mem_blockIds_of_succ {b s : Nat} (edge : s ∈ f.succs b) : s ∈ f.blockIds :=
  mem_blockIds_of_mem_preds (flow.mem_succs_iff.mp edge)

theorem reachable {b : Nat} (inside : b ∈ f.blockIds) : f.Reachable b := by
  have reached := List.all_eq_true.mp flow.reached b inside
  exact Graph.mem_explore_iff.mp (List.contains_iff_mem.mp reached)

end Connected

namespace WellFormed

variable (wf : f.WellFormed)
include wf

theorem phi_fits {p : Place} {edges : List Value} {comment : String}
    (phi : f.operation? p = some (.phi edges comment)) :
    edges.length = (f.preds p.block).length ∧ p.block ∉ f.roots := by
  have fits := List.all_eq_true.mp wf.phis p (mem_places_of_operation? phi)
  simpa [phiFits, phi] using fits

/-- A phi has an edge for each predecessor. -/
theorem exists_edge {p : Place} {edges : List Value} {comment : String}
    (phi : f.operation? p = some (.phi edges comment)) {b j : Nat} (edge : (f.preds p.block)[j]? = some b) :
    ∃ v, edges[j]? = some v ∧ (b, v) ∈ (f.preds p.block).zip edges := by
  have inside : j < edges.length := (wf.phi_fits phi).1 ▸ (List.getElem?_eq_some_iff.mp edge).1
  have here := List.getElem?_eq_getElem inside
  exact ⟨edges[j], here, List.mem_iff_getElem?.mpr ⟨j, List.getElem?_zip_eq_some.mpr ⟨edge, here⟩⟩⟩

/-- The edges of an integer phi are integers. -/
theorem isInteger_edge {p : Place} {edges : List Value} {comment : String}
    (phi : f.operation? p = some (.phi edges comment)) (integer : f.isInteger (.result p) = true) {v : Value}
    (member : v ∈ edges) : f.isInteger v = true :=
  isInteger_operand wf.integersTyped phi integer member

end WellFormed

/-! ### Availability -/

/-- The value has been computed whenever control gets to the block. -/
def AvailableBefore (f : Function) (b : Nat) : Value → Prop
  | .result q => q.block ≠ b ∧ f.dominates q.block b = true
  | _ => True

/-- The value has been computed whenever control is at the place. A phi is computed when its block is
    entered. -/
def Available (f : Function) (p : Place) : Value → Prop
  | .result q =>
    (q.block = p.block ∧ (q.index < p.index ∨ f.IsPhi q)) ∨ (q.block ≠ p.block ∧ f.dominates q.block p.block = true)
  | _ => True

theorem available_phi {p q : Place} (isPhi : f.IsPhi q) (dominates : f.dominates q.block p.block = true) :
    f.Available p (.result q) := by
  by_cases same : q.block = p.block
  · exact .inl ⟨same, .inr isPhi⟩
  · exact .inr ⟨same, dominates⟩

theorem Available.dominates {p q : Place} (available : f.Available p (.result q)) :
    f.dominates q.block p.block = true := by
  rcases available with ⟨same, _⟩ | ⟨_, dominates⟩
  · exact same ▸ dominates_refl f q.block
  · exact dominates

/-- What is available before a block is available before those that it dominates. -/
theorem AvailableBefore.trans {v : Value} {a b : Nat} (before : f.AvailableBefore a v)
    (dominates : f.dominates a b = true) (reachable : f.Reachable b) : f.AvailableBefore b v := by
  cases v with
  | result r =>
    obtain ⟨other, first⟩ := before
    refine ⟨fun same => other ?_, dominates_trans first dominates⟩
    subst same
    exact dominates_antisymm reachable first dominates
  | _ => trivial

/-- What is available before a block is available wherever the block dominates. -/
theorem AvailableBefore.available {v : Value} {p : Place} {b : Nat} (before : f.AvailableBefore b v)
    (dominates : f.dominates b p.block = true) (reachable : f.Reachable p.block) : f.Available p v := by
  have before := before.trans dominates reachable
  cases v with
  | result r => exact .inr before
  | _ => trivial

theorem available_of_precedes {p q : Place} (before : f.precedes q p = true) : f.Available p (.result q) := by
  unfold precedes at before
  split at before
  · rename_i same
    exact .inl ⟨same, .inl (by simpa using before)⟩
  · rename_i other
    exact .inr ⟨other, before⟩

namespace WellFormed

variable (wf : f.WellFormed)
include wf

/-- The operands of an instruction other than a phi come before it. -/
theorem precedes_of_mem_operands {p q : Place} {operation : Operation} (here : f.operation? p = some operation)
    (noPhi : ¬ f.IsPhi p) (member : .result q ∈ operation.operands) : f.precedes q p = true ∧ q ∈ f.places := by
  have defined := List.all_eq_true.mp wf.definitions p (mem_places_of_operation? here)
  unfold operandsDefined at defined
  rw [here] at defined
  cases operation with
  | phi edges comment => exact absurd ⟨edges, comment, here⟩ noPhi
  | _ =>
    have operand := List.all_eq_true.mp defined _ member
    simp only [Value.place?, Option.all_some, Bool.and_eq_true, List.contains_iff_mem] at operand
    exact ⟨operand.2, operand.1⟩

/-- The value of a phi's edge has been computed at the end of the predecessor. -/
theorem dominates_of_mem_zip {p q : Place} {edges : List Value} {comment : String}
    (phi : f.operation? p = some (.phi edges comment)) {b : Nat}
    (member : (b, Value.result q) ∈ (f.preds p.block).zip edges) : f.dominates q.block b = true ∧ q ∈ f.places := by
  have defined := List.all_eq_true.mp wf.definitions p (mem_places_of_operation? phi)
  simp only [operandsDefined, phi] at defined
  have operand := List.all_eq_true.mp defined _ member
  simp only [Value.place?, Option.all_some, Bool.and_eq_true, List.contains_iff_mem] at operand
  exact ⟨operand.2, operand.1⟩

/-- Where the result of an instruction other than a phi is available, so are its operands. -/
theorem available_operand {p q : Place} (available : f.Available p (.result q)) (reachable : f.Reachable p.block)
    {operation : Operation} (here : f.operation? q = some operation) (noPhi : ¬ f.IsPhi q) {v : Value}
    (member : v ∈ operation.operands) : f.Available p v := by
  cases v with
  | result r =>
    obtain ⟨before, _⟩ := wf.precedes_of_mem_operands here noPhi member
    rcases available_of_precedes before with ⟨same, earlier⟩ | other
    · -- Both stand in one block, the operand before the instruction or among the phis.
      rcases available with ⟨inside, lower | phi⟩ | ⟨outside, dominates⟩
      · exact .inl ⟨same.trans inside, earlier.imp_left fun lower' => by omega⟩
      · exact absurd phi noPhi
      · exact .inr ⟨same ▸ outside, same ▸ dominates⟩
    · exact AvailableBefore.available other available.dominates reachable
  | _ => trivial

end WellFormed

/-! ### The order of definitions -/

theorem not_precedes_self (p : Place) : f.precedes p p = false := by
  simp [precedes]

theorem precedes_trans {p q r : Place} (reachable : f.Reachable p.block) (first : f.precedes p q = true)
    (second : f.precedes q r = true) : f.precedes p r = true := by
  unfold precedes at *
  by_cases before : p.block = q.block
  · rw [if_pos before, decide_eq_true_eq] at first
    rw [before]
    split at second
    · rename_i after
      rw [if_pos after]
      rw [decide_eq_true_eq] at second ⊢
      omega
    · rename_i after
      rw [if_neg after]
      exact second
  · rw [if_neg before] at first
    split at second
    · rename_i after
      rw [← after, if_neg before]
      exact first
    · have other : p.block ≠ r.block := by
        intro same
        exact before (dominates_antisymm reachable first (same ▸ second))
      rw [if_neg other]
      exact dominates_trans first second

/-- Places do not precede each other in circles. -/
theorem WellFormed.wellFounded_precedes (wf : f.WellFormed) :
    WellFounded fun q p : { p // p ∈ f.places } => f.precedes q p = true := by
  have : Finite { p // p ∈ f.places } := f.places.finite_toSet.to_subtype
  have : IsTrans { p // p ∈ f.places } fun q p => f.precedes q p = true :=
    ⟨fun p _ _ => precedes_trans (wf.connected.reachable (mem_blockIds_of_mem_places p.2))⟩
  have : Std.Irrefl fun q p : { p // p ∈ f.places } => f.precedes q p = true :=
    ⟨fun p same => by simp [not_precedes_self] at same⟩
  exact Finite.wellFounded_of_trans_of_irrefl _

end Function

end LoopConflict.Program
