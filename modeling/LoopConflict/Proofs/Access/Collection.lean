import LoopConflict.Proofs.Access.Chain
import LoopConflict.Proofs.Graph.Walk
import LoopConflict.Proofs.Program.Availability

/-!
The address computations that an access depends on are those that a depth-first walk along operands gets to, from the
left to the right, in that order (`addressSteps_exact`). The operands may go in circles, also through the access
itself. That a walk never enters the access leaves nothing out: a load leads to the address that the walk started
with, and a store is no operand.
-/
namespace LoopConflict.Access

open Program (Function Place Value Operation)
open LoopConflict.Graph (Walk Reach)

variable {f : Function} {access : Place} {address : Value}

/-- A store has no result, and so it is no operand. -/
def storesUnused (f : Function) : Bool :=
  f.places.all fun p => (operandPlaces f p).all fun q =>
    match f.operation? q with
    | some (.store _ _) => false
    | _ => true

theorem not_mem_operandPlaces (unused : storesUnused f = true) {x y : Value}
    (store : f.operation? access = some (.store x y)) (p : Place) : access ∉ operandPlaces f p := by
  intro member
  cases found : f.operation? p with
  | none => simp [operandPlaces, found] at member
  | some operation =>
    have place := Function.mem_places_of_operation? found
    have checked := List.all_eq_true.mp (List.all_eq_true.mp unused p place) access member
    rw [store] at checked
    cases checked

/-- Where a walk for an access starts: at its address, or with `wide` at all its operands. -/
def walkStarts (f : Function) (access : Place) (address : Value) (wide : Bool) : List Place :=
  if wide then operandPlaces f access else address.place?.toList

/-- A load has no operand beside its address. -/
theorem walkStarts_load (load : f.operation? access = some (.load address)) (wide : Bool) :
    operandPlaces f access = address.place?.toList ∧ walkStarts f access address wide = address.place?.toList := by
  have operands : operandPlaces f access = address.place?.toList := by
    simp only [operandPlaces, load, Operation.operands, filterMap_place?]
  refine ⟨operands, ?_⟩
  cases wide
  · rfl
  · exact operands

theorem roots_eq_walkStarts (accessed : accessedAddress? f access = some address) (wide : Bool) :
    (((f.operation? access).map (accessRoots wide)).getD []).filterMap Value.place? =
      walkStarts f access address wide := by
  rcases accessedAddress?_cases accessed with load | ⟨y, store⟩
  · rw [(walkStarts_load load wide).2, load, ← filterMap_place?]
    rfl
  · rw [store, walkStarts, operandPlaces, store]
    cases wide
    · exact filterMap_place? address
    · rfl

/-- A walk that has seen the access from the start enters the same other instructions. -/
theorem walk_access (unused : storesUnused f = true) (accessed : accessedAddress? f access = some address) {wide : Bool}
    {order : List Place}
    (walk : Walk (operandPlaces f) (· ∈ f.places) [] (walkStarts f access address wide) order) :
    Walk (operandPlaces f) (· ∈ f.places) [access] (walkStarts f access address wide) (order.filter (· ≠ access)) := by
  rcases accessedAddress?_cases accessed with load | ⟨y, store⟩
  · obtain ⟨operands, starts⟩ := walkStarts_load load wide
    rw [starts] at walk ⊢
    cases place : address.place? with
    | none =>
      rw [place] at walk
      cases walk
      exact .done
    | some p =>
      rw [place] at walk operands
      exact walk.seen_of_next_eq operands
  · -- The walk never gets to a store.
    have nowhere := not_mem_operandPlaces unused store
    refine walk.seen_earlier fun reach => absurd reach ?_
    intro reach
    cases reach with
    | step _ edge _ => exact nowhere _ edge
    | start member _ =>
      cases wide with
      | true => exact nowhere access member
      | false =>
        refine nowhere access ?_
        rw [operandPlaces, store]
        exact List.mem_filterMap.mpr ⟨address, by simp [Operation.operands], by simpa [walkStarts] using member⟩

/-- The address computations that a load or a store depends on: a walk from its address, or with `wide` from all its
    operands, is over after finitely many instructions, and the address computations among those are the ones found,
    in the order of the walk. It is the same whether the access has been seen from the start. So what is found is what
    can be reached along operands, each instruction once. -/
theorem addressSteps_exact (unused : storesUnused f = true) (accessed : accessedAddress? f access = some address)
    (wide : Bool) :
    (∀ seen : List Place, (∀ p ∈ seen, p = access) →
      ∃ order, (∀ order', Walk (operandPlaces f) (· ∈ f.places) seen (walkStarts f access address wide) order' ↔
          order' = order) ∧
        addressSteps f access wide = order.filter fun p => isStep f (.result p)) ∧
    (addressSteps f access wide).Nodup ∧
    ∀ p, p ∈ addressSteps f access wide ↔
      isStep f (.result p) = true ∧ Reach (operandPlaces f) (· ∈ f.places) (walkStarts f access address wide) p := by
  have walk : Walk (operandPlaces f) (· ∈ f.places) [] (walkStarts f access address wide)
      (Graph.explore (operandPlaces f) f.places (walkStarts f access address wide)) :=
    Graph.walk_explore f.nodup_places (by simp) _
  have walk' : Walk (operandPlaces f) (· ∈ f.places) [access] (walkStarts f access address wide)
      (Graph.explore (operandPlaces f) (f.places.erase access) (walkStarts f access address wide)) :=
    Graph.walk_explore (f.nodup_places.erase access) (by simp [f.nodup_places.mem_erase_iff, and_comm]) _
  have found' : addressSteps f access wide =
      (Graph.explore (operandPlaces f) (f.places.erase access) (walkStarts f access address wide)).filter
        fun p => isStep f (.result p) := by
    rw [addressSteps, roots_eq_walkStarts accessed wide]
    rfl
  have found : addressSteps f access wide =
      (Graph.explore (operandPlaces f) f.places (walkStarts f access address wide)).filter
        fun p => isStep f (.result p) := by
    rw [found', walk'.unique (walk_access unused accessed walk), List.filter_filter]
    refine List.filter_congr fun p _ => ?_
    by_cases same : p = access
    · simp [same, isStep_access accessed]
    · simp [same]
  refine ⟨fun seen only => ?_, ?_, fun p => ?_⟩
  · by_cases member : access ∈ seen
    · have same : ∀ p, p ∈ [access] ↔ p ∈ seen := by
        intro p
        rw [List.mem_singleton]
        exact ⟨fun here => here ▸ member, only p⟩
      refine ⟨_, fun order' => ⟨fun other => other.unique (walk'.of_seen same), ?_⟩, found'⟩
      rintro rfl
      exact walk'.of_seen same
    · obtain rfl : seen = [] := List.eq_nil_iff_forall_not_mem.mpr fun p here => member (only p here ▸ here)
      refine ⟨_, fun order' => ⟨fun other => other.unique walk, ?_⟩, found⟩
      rintro rfl
      exact walk
  · rw [found]
    exact walk.nodup.1.filter _
  · rw [found, List.mem_filter, Graph.mem_explore_iff, and_comm]

/-- Operands in a circle through a phi, a load and an address that is computed further down; what is stored is
    loaded from an address of its own. -/
def roundabout : Function where
  name := "roundabout"
  receiver := none
  types := []
  params := [{ name := "a", type := default }]
  free := []
  globals := []
  constants := []
  blocks :=
    [{ comment := "entry", preds := [], succs := [1], instructions := [{ operation := .jump }] },
      { comment := "loop", preds := [0, 1], succs := [1], instructions :=
        [{ operation := .phi [.param 0, .result ⟨1, 3⟩] "i" },
          { operation := .indexAddress (.result ⟨1, 5⟩) (.result ⟨1, 0⟩) },
          { operation := .load (.result ⟨1, 1⟩) },
          { operation := .binary .add (.result ⟨1, 2⟩) (.result ⟨1, 0⟩) },
          { operation := .store (.result ⟨1, 1⟩) (.result ⟨1, 7⟩) },
          { operation := .fieldAddress (.param 0) 1 },
          { operation := .fieldAddress (.param 0) 2 },
          { operation := .load (.result ⟨1, 6⟩) },
          { operation := .jump }] }]
  recover := none

theorem roundabout_steps :
    addressSteps roundabout ⟨1, 2⟩ false = [⟨1, 1⟩, ⟨1, 5⟩] ∧ addressSteps roundabout ⟨1, 4⟩ false = [⟨1, 1⟩, ⟨1, 5⟩] ∧
      addressSteps roundabout ⟨1, 4⟩ true = [⟨1, 1⟩, ⟨1, 5⟩, ⟨1, 6⟩] ∧
      (∀ p, p ∈ [(⟨1, 1⟩ : Place), ⟨1, 5⟩] ↔ isStep roundabout (.result p) = true ∧
        Reach (operandPlaces roundabout) (· ∈ roundabout.places) [⟨1, 1⟩] p) ∧
      ∃ order, Walk (operandPlaces roundabout) (· ∈ roundabout.places) [] [⟨1, 1⟩, ⟨1, 7⟩] order ∧
        order.filter (fun p => isStep roundabout (.result p)) = [⟨1, 1⟩, ⟨1, 5⟩, ⟨1, 6⟩] := by
  have load : addressSteps roundabout ⟨1, 2⟩ false = [⟨1, 1⟩, ⟨1, 5⟩] := by decide
  have store : addressSteps roundabout ⟨1, 4⟩ true = [⟨1, 1⟩, ⟨1, 5⟩, ⟨1, 6⟩] := by decide
  obtain ⟨_, _, reached⟩ := @addressSteps_exact roundabout ⟨1, 2⟩ (.result ⟨1, 1⟩) (by decide) rfl false
  obtain ⟨walks, _, _⟩ := @addressSteps_exact roundabout ⟨1, 4⟩ (.result ⟨1, 1⟩) (by decide) rfl true
  obtain ⟨order, walk, found⟩ := walks [] (by simp)
  exact ⟨load, by decide, store, load ▸ reached, order, (walk order).mpr rfl, by rw [← found, store]⟩

end LoopConflict.Access
