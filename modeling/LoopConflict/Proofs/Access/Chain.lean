import LoopConflict.Access.Address
import LoopConflict.Proofs.Program.WellFormed

/-!
Chains of address computations. An accessed address is computed from its root by element and field
addresses, each of which offsets from what the next one computes (`Chain`). An address has one chain at
most, and no step occurs in it twice. An exploration along operands goes to the base of a step first, so
the address computations that an access depends on start with the chain of its address
(`Chain.exists_addressSteps_eq`). The ones after the chain only feed indices or the root.
-/
namespace LoopConflict.Access

open Program (Function Place Value Operation)

/-- The address that a load or a store accesses. -/
def accessedAddress? (f : Function) (access : Place) : Option Value :=
  match f.operation? access with
  | some (.load x) => some x
  | some (.store x _) => some x
  | _ => none

/-- The value is the result of an address computation. -/
def isStep (f : Function) (v : Value) : Bool :=
  ((f.definition? v).map isAddressStep).getD false

/-- The address is computed from the root by the given steps, the last one of which comes first. -/
inductive Chain (f : Function) : Value → List Place → Value → Prop where
  | root {v : Value} : isStep f v = false → Chain f v [] v
  | link {p : Place} {base : Value} {steps : List Place} {root : Value} :
    stepBase? f p = some base → Chain f base steps root → Chain f (.result p) (p :: steps) root

variable {f : Function}

theorem accessedAddress?_cases {access : Place} {address : Value} (accessed : accessedAddress? f access = some address) :
    f.operation? access = some (.load address) ∨ ∃ y, f.operation? access = some (.store address y) := by
  unfold accessedAddress? at accessed
  split at accessed
  · rename_i operation
    cases accessed
    exact .inl operation
  · rename_i y operation
    cases accessed
    exact .inr ⟨y, operation⟩
  · cases accessed

theorem isStep_access {access : Place} {address : Value} (accessed : accessedAddress? f access = some address) :
    isStep f (.result access) = false := by
  change ((f.operation? access).map isAddressStep).getD false = false
  rcases accessedAddress?_cases accessed with load | ⟨y, store⟩
  · rw [load]
    rfl
  · rw [store]
    rfl

theorem filterMap_place? (v : Value) : [v].filterMap Value.place? = v.place?.toList := by
  cases place : v.place? <;> simp [place]

theorem stepBase?_cases {p : Place} {base : Value} (offsets : stepBase? f p = some base) :
    (∃ index, f.operation? p = some (.indexAddress base index)) ∨ ∃ n, f.operation? p = some (.fieldAddress base n) := by
  unfold stepBase? at offsets
  split at offsets
  · rename_i x index operation
    cases offsets
    exact .inl ⟨index, operation⟩
  · rename_i x n operation
    cases offsets
    exact .inr ⟨n, operation⟩
  · cases offsets

theorem isStep_of_stepBase? {p : Place} {base : Value} (offsets : stepBase? f p = some base) :
    isStep f (.result p) = true := by
  change ((f.operation? p).map isAddressStep).getD false = true
  rcases stepBase?_cases offsets with ⟨index, operation⟩ | ⟨n, operation⟩ <;> simp [operation, isAddressStep]

/-- The base of a step is its first operand. -/
theorem exists_operandPlaces_eq {p : Place} {base : Value} (offsets : stepBase? f p = some base) :
    ∃ operands, operandPlaces f p = base.place?.toList ++ operands := by
  have split : ∀ rest : List Value,
      (base :: rest).filterMap Value.place? = base.place?.toList ++ rest.filterMap Value.place? := by
    intro rest
    cases place : base.place? <;> simp [place]
  rcases stepBase?_cases offsets with ⟨index, operation⟩ | ⟨n, operation⟩
  · refine ⟨[index].filterMap Value.place?, ?_⟩
    simp only [operandPlaces, operation, Operation.operands, split]
  · refine ⟨[], ?_⟩
    simp only [operandPlaces, operation, Operation.operands, split, List.filterMap_nil]

namespace Chain

/-- An address has one chain. -/
theorem unique {v root root' : Value} {steps steps' : List Place} (chain : Chain f v steps root)
    (chain' : Chain f v steps' root') : steps = steps' ∧ root = root' := by
  induction chain generalizing steps' root' with
  | root noStep =>
    cases chain' with
    | root _ => exact ⟨rfl, rfl⟩
    | link offsets _ =>
      rw [isStep_of_stepBase? offsets] at noStep
      cases noStep
  | link offsets _ ih =>
    cases chain' with
    | root noStep =>
      rw [isStep_of_stepBase? offsets] at noStep
      cases noStep
    | link offsets' rest' =>
      rw [offsets] at offsets'
      cases offsets'
      obtain ⟨rfl, rfl⟩ := ih rest'
      exact ⟨rfl, rfl⟩

theorem exists_of_mem {v root : Value} {steps : List Place} (chain : Chain f v steps root) {p : Place}
    (member : p ∈ steps) : ∃ rest, Chain f (.result p) rest root ∧ rest.length ≤ steps.length := by
  induction chain with
  | root _ => cases member
  | link offsets chain ih =>
    rcases List.mem_cons.mp member with rfl | later
    · exact ⟨_, .link offsets chain, Nat.le_refl _⟩
    · obtain ⟨rest, chain', shorter⟩ := ih later
      exact ⟨rest, chain', by simp; omega⟩

/-- A step does not occur again further down its chain, which would go on for ever. -/
theorem not_mem {p : Place} {base root : Value} {steps : List Place} (offsets : stepBase? f p = some base)
    (chain : Chain f base steps root) : p ∉ steps := by
  intro member
  obtain ⟨rest, chain', shorter⟩ := chain.exists_of_mem member
  obtain ⟨rfl, _⟩ := (Chain.link offsets chain).unique chain'
  rw [List.length_cons] at shorter
  omega

theorem isStep_of_mem {v root : Value} {steps : List Place} (chain : Chain f v steps root) {p : Place}
    (member : p ∈ steps) : isStep f (.result p) = true := by
  induction chain with
  | root _ => cases member
  | link offsets _ ih =>
    rcases List.mem_cons.mp member with rfl | later
    · exact isStep_of_stepBase? offsets
    · exact ih later

/-- An exploration visits the steps of a chain one after the other. -/
theorem exists_visit_eq {v root : Value} {steps : List Place} (chain : Chain f v steps root)
    {unvisited : List Place} (inside : ∀ p ∈ steps, p ∈ unvisited) (pending : List Place) :
    ∃ more, Graph.visit (operandPlaces f) unvisited.length unvisited (v.place?.toList ++ pending) = steps ++ more := by
  induction chain generalizing unvisited pending with
  | root _ => exact ⟨_, rfl⟩
  | @link p base steps root offsets chain ih =>
    -- The exploration goes on from the base with one place less to visit, and `p` is not met again.
    have here : p ∈ unvisited := inside p (by simp)
    obtain ⟨operands, next⟩ := exists_operandPlaces_eq offsets
    have left : ∀ q ∈ steps, q ∈ unvisited.erase p := by
      intro q member
      have other : q ≠ p := fun same => not_mem offsets chain (same ▸ member)
      exact (List.mem_erase_of_ne other).mpr (inside q (by simp [member]))
    obtain ⟨more, visited⟩ := ih left (operands ++ pending)
    have room : unvisited.length = (unvisited.erase p).length + 1 := by
      rw [List.length_erase_of_mem here]
      have := List.length_pos_of_mem here
      omega
    have front : ((Value.result p).place?.toList ++ pending).dropWhile (· ∉ unvisited) = p :: pending := by
      simp [Value.place?, here]
    refine ⟨more, ?_⟩
    rw [room, Graph.visit, front, List.cons_append, ← visited]
    dsimp only
    rw [next, List.append_assoc]

/-- The address computations that an access depends on start with the chain of its address. -/
theorem exists_addressSteps_eq {access : Place} {v root : Value} {steps : List Place}
    (accessed : accessedAddress? f access = some v) (chain : Chain f v steps root) :
    ∃ more, addressSteps f access false = steps ++ more := by
  have roots : ((f.operation? access).map (accessRoots false)).getD [] = [v] := by
    rcases accessedAddress?_cases accessed with load | ⟨y, store⟩
    · simp [load, accessRoots]
    · simp [store, accessRoots]
  have noStep := isStep_access accessed
  have inside : ∀ p ∈ steps, p ∈ f.places.erase access := by
    intro p member
    have step := chain.isStep_of_mem member
    have other : p ≠ access := by
      rintro rfl
      rw [noStep] at step
      cases step
    refine (List.mem_erase_of_ne other).mpr (Function.mem_places_iff.mpr ?_)
    change ((f.operation? p).map isAddressStep).getD false = true at step
    cases found : f.instruction? p with
    | some _ => rfl
    | none => simp [Function.operation?, found] at step
  obtain ⟨more, visited⟩ := chain.exists_visit_eq inside []
  refine ⟨more.filter fun p => ((f.operation? p).map isAddressStep).getD false, ?_⟩
  have kept : steps.filter (fun p => ((f.operation? p).map isAddressStep).getD false) = steps :=
    List.filter_eq_self.mpr fun p member => chain.isStep_of_mem member
  dsimp only [addressSteps]
  rw [roots, filterMap_place?, ← List.append_nil v.place?.toList, Graph.explore, visited, List.filter_append, kept]

end Chain

end LoopConflict.Access
