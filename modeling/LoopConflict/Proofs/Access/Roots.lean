import LoopConflict.Proofs.Access.Chain
import LoopConflict.Proofs.Execution.Run
import Mathlib.Data.List.Perm.Subperm
import Mathlib.Order.WellFounded

/-!
The roots of addresses. The address computations that an access depends on have a root, which none of them
computes, unless there are none: what a step offsets from comes before it, so one step has nothing before
it (`exists_rootBase?`). A root that is loaded stands for all loads from its address if the address does not
change in the loop and no store in the loop names it (`Stable`, `StandsFor`).
-/
namespace LoopConflict.Access

open Loop (Forest LoopId)
open Program (Function Place Value Operation)
open Execution (Mode State Stays)

/-! ### Steps and their bases -/

section

variable {f : Function} {access : Place} {wide : Bool}

theorem isStep_of_mem_addressSteps {p : Place} (member : p ∈ addressSteps f access wide) :
    isStep f (.result p) = true :=
  (List.mem_filter.mp member).2

theorem exists_operation?_of_isStep {p : Place} (step : isStep f (.result p) = true) :
    ∃ operation, f.operation? p = some operation ∧ isAddressStep operation = true := by
  change ((f.operation? p).map isAddressStep).getD false = true at step
  cases found : f.operation? p with
  | none => simp [found] at step
  | some operation => exact ⟨operation, rfl, by simpa [found] using step⟩

theorem exists_stepBase? {p : Place} (step : isStep f (.result p) = true) : ∃ base, stepBase? f p = some base := by
  obtain ⟨operation, found, step⟩ := exists_operation?_of_isStep step
  unfold stepBase?
  rw [found]
  cases operation with
  | indexAddress x index => exact ⟨x, rfl⟩
  | fieldAddress x n => exact ⟨x, rfl⟩
  | _ => cases step

/-- The steps of an access are closed: what a step offsets from is a step of the access, if it is one at all. -/
theorem mem_addressSteps_of_stepBase? (noStep : isStep f (.result access) = false) {p q : Place}
    (member : p ∈ addressSteps f access wide) (offsets : stepBase? f p = some (.result q))
    (step : isStep f (.result q) = true) : q ∈ addressSteps f access wide := by
  obtain ⟨operation, found, _⟩ := exists_operation?_of_isStep step
  obtain ⟨operands, next⟩ := exists_operandPlaces_eq offsets
  have other : q ≠ access := by
    rintro rfl
    rw [noStep] at step
    cases step
  have inside : q ∈ f.places.erase access :=
    (List.mem_erase_of_ne other).mpr (Function.mem_places_of_operation? found)
  have edge : q ∈ operandPlaces f p := by simp [next, Value.place?]
  have visited := Graph.mem_explore_iff.mp (List.mem_filter.mp member).1
  exact List.mem_filter.mpr ⟨Graph.mem_explore_iff.mpr (.step visited edge inside), step⟩

theorem stepBase?_precedes (wf : f.WellFormed) {p q : Place} (offsets : stepBase? f p = some (.result q)) :
    f.precedes q p = true := by
  rcases stepBase?_cases offsets with ⟨index, operation⟩ | ⟨n, operation⟩
  all_goals
    have noPhi := Function.not_isPhi_of_operation? operation (by simp)
    exact (wf.precedes_of_mem_operands operation noPhi (by simp [Operation.operands])).1

theorem rootBase?_cases {steps : List Place} {v : Value} (found : rootBase? f steps = some v) :
    ∃ p ∈ steps, stepBase? f p = some v :=
  List.mem_filterMap.mp (List.mem_of_find?_eq_some found)

/-- What a step offsets from is no integer. -/
theorem isInteger_stepBase? (wf : f.WellFormed) {p : Place} {v : Value} (offsets : stepBase? f p = some v) :
    f.isInteger v = false := by
  rcases stepBase?_cases offsets with ⟨index, operation⟩ | ⟨n, operation⟩
  all_goals
    have typed := List.all_eq_true.mp wf.types p (Function.mem_places_of_operation? operation)
    simpa [Function.operandsTyped, operation] using typed

/-- An access with address computations has a root. -/
theorem exists_rootBase? (wf : f.WellFormed) (noStep : isStep f (.result access) = false)
    (nonempty : addressSteps f access wide ≠ []) : ∃ v, rootBase? f (addressSteps f access wide) = some v := by
  have place : ∀ p ∈ addressSteps f access wide, p ∈ f.places := by
    intro p member
    obtain ⟨operation, found, _⟩ := exists_operation?_of_isStep (isStep_of_mem_addressSteps member)
    exact Function.mem_places_of_operation? found
  -- The base of a step before which there is none is not computed by a step.
  obtain ⟨first, inSteps⟩ := List.exists_mem_of_ne_nil _ nonempty
  obtain ⟨⟨p, _⟩, member, least⟩ := wf.wellFounded_precedes.has_min { p | p.1 ∈ addressSteps f access wide }
    ⟨⟨first, place first inSteps⟩, inSteps⟩
  obtain ⟨base, offsets⟩ := exists_stepBase? (isStep_of_mem_addressSteps member)
  have root : isStep f base = false := by
    by_contra step
    rw [Bool.not_eq_false] at step
    cases base with
    | result q =>
      have inside := mem_addressSteps_of_stepBase? noStep member offsets step
      exact least ⟨q, place q inside⟩ inside (stepBase?_precedes wf offsets)
    | _ => cases step
  refine Option.isSome_iff_exists.mp (List.find?_isSome.mpr ⟨base, List.mem_filterMap.mpr ⟨p, member, offsets⟩, ?_⟩)
  change (!isStep f base) = true
  rw [root]
  rfl

end

/-! ### Fields of a root -/

/-- The address is computed from a root by selecting fields, one after the other. -/
inductive Selects (f : Function) : Value → AddressKey → Prop where
  | root {v : Value} : (∀ x n, f.definition? v ≠ some (.fieldAddress x n)) → Selects f v ⟨v, []⟩
  | field {p : Place} {x : Value} {n : Nat} {k : AddressKey} :
    f.operation? p = some (.fieldAddress x n) → Selects f x k → Selects f (.result p) ⟨k.root, k.fields ++ [n]⟩

variable {F : Forest} {l : LoopId}

theorem selects_of_invariantAddressWithin {fuel : Nat} {v : Value} {k : AddressKey}
    (found : invariantAddressWithin F l fuel v = some k) : Selects F.function v k ∧ F.defines l k.root = false := by
  induction fuel generalizing v k with
  | zero => cases found
  | succ fuel ih =>
    rw [invariantAddressWithin] at found
    split at found
    · rename_i x n defined
      obtain ⟨p, rfl, here⟩ := Function.exists_place defined
      obtain ⟨k', found', rfl⟩ := Option.map_eq_some_iff.mp found
      obtain ⟨selects, outside⟩ := ih found'
      exact ⟨.field here selects, outside⟩
    · rename_i noField
      rw [Option.ite_none_left_eq_some, Bool.not_eq_true] at found
      obtain ⟨outside, same⟩ := found
      cases same
      exact ⟨.root noField, outside⟩

theorem invariantAddressWithin_of_selects {v : Value} {k : AddressKey} (selects : Selects F.function v k)
    (outside : F.defines l k.root = false) {fuel : Nat} (enough : k.fields.length < fuel) :
    invariantAddressWithin F l fuel v = some k := by
  induction selects generalizing fuel with
  | root noField =>
    cases fuel with
    | zero => cases enough
    | succ fuel =>
      rw [invariantAddressWithin]
      split
      · rename_i x n defined
        exact absurd defined (noField x n)
      · exact if_neg (by simpa using outside)
  | @field p x n k here _ ih =>
    cases fuel with
    | zero => cases enough
    | succ fuel =>
      have defined : F.function.definition? (.result p) = some (.fieldAddress x n) := here
      rw [List.length_append, List.length_singleton] at enough
      rw [invariantAddressWithin, defined]
      simp [ih outside (by omega : k.fields.length < fuel)]

/-- Each field is selected at a place of its own. -/
theorem Selects.exists_places {f : Function} (wf : f.WellFormed) {v : Value} {k : AddressKey} (selects : Selects f v k) :
    ∃ places : List Place, places.length = k.fields.length ∧ places.Nodup ∧
      ∀ q ∈ places, q ∈ f.places ∧ (v = .result q ∨ ∃ p, v = .result p ∧ f.precedes q p = true) := by
  induction selects with
  | root _ => exact ⟨[], rfl, .nil, by simp⟩
  | @field p x n k here _ ih =>
    obtain ⟨places, length, nodup, each⟩ := ih
    have noPhi := Function.not_isPhi_of_operation? here (by simp)
    have before : ∀ q ∈ places, f.precedes q p = true := by
      intro q member
      have operand : ∀ r, x = .result r → f.precedes r p = true := by
        rintro r rfl
        exact (wf.precedes_of_mem_operands here noPhi (by simp [Operation.operands])).1
      obtain ⟨place, same | ⟨r, same, earlier⟩⟩ := each q member
      · exact operand q same
      · have reachable := wf.connected.reachable (Function.mem_blockIds_of_mem_places place)
        exact Function.precedes_trans reachable earlier (operand r same)
    have new : p ∉ places := fun member => by simpa [Function.not_precedes_self] using before p member
    refine ⟨p :: places, by simp [length], List.nodup_cons.mpr ⟨new, nodup⟩, fun q member => ?_⟩
    rcases List.mem_cons.mp member with rfl | later
    · exact ⟨Function.mem_places_of_operation? here, .inl rfl⟩
    · exact ⟨(each q later).1, .inr ⟨p, rfl, before q later⟩⟩

/-- The key of an address is found exactly if the address selects fields of a root from outside of the loop. -/
theorem invariantAddress?_eq_some_iff (wf : F.function.WellFormed) {v : Value} {k : AddressKey} :
    invariantAddress? F l v = some k ↔ Selects F.function v k ∧ F.defines l k.root = false := by
  refine ⟨selects_of_invariantAddressWithin, fun ⟨selects, outside⟩ => ?_⟩
  obtain ⟨places, length, nodup, each⟩ := selects.exists_places wf
  have fewer := (nodup.subperm fun q member => (each q member).1).length_le
  exact invariantAddressWithin_of_selects selects outside (by omega)

/-! ### Stable loads -/

/-- The value is the same all the time that control stays in the loop. -/
def Fixed (F : Forest) (l : LoopId) (v : Value) : Prop :=
  ∀ {mode : Mode} {s s' : State}, Stays mode F l s s' → s'.values v = s.values v

/-- The value is loaded from an address that is the same all the time that control stays in the loop. No store
    in the loop is to this address by its name. -/
structure Stable (F : Forest) (l : LoopId) (k : AddressKey) (v : Value) : Prop where
  load : ∃ address, F.function.definition? v = some (.load address) ∧ Selects F.function address k
  root : Fixed F l k.root
  unstored : ∀ p address x, F.contains l p.block = true → F.function.operation? p = some (.store address x) →
    ¬ Selects F.function address k

/-- The two values are the same, or both are stable loads from one address. -/
def StandsFor (F : Forest) (l : LoopId) (w v : Value) : Prop :=
  v = w ∨ ∃ k, Stable F l k v ∧ Stable F l k w

theorem stable_of_stableLoad? (wf : F.function.WellFormed) {v : Value} {k : AddressKey}
    (found : stableLoad? F l v = some k) : Stable F l k v := by
  unfold stableLoad? at found
  split at found
  · rename_i address defined
    obtain ⟨found, unstored⟩ := Option.filter_eq_some_iff.mp found
    obtain ⟨selects, outside⟩ := (invariantAddress?_eq_some_iff wf).mp found
    refine ⟨⟨address, defined, selects⟩, fun stays => stays.values_eq outside, ?_⟩
    intro p address' x inside here selects'
    rw [Bool.not_eq_true', storesTo, List.any_eq_false] at unstored
    refine unstored p (Function.mem_places_of_operation? here) ?_
    rw [inside, here, Bool.true_and]
    exact beq_iff_eq.mpr ((invariantAddress?_eq_some_iff wf).mpr ⟨selects', outside⟩)
  · cases found

end LoopConflict.Access
