import LoopConflict.Proofs.Evolution.Stability
import LoopConflict.Proofs.Access.Names
import Mathlib.Data.List.TakeWhile

/-!
Induction variables and affine indices. Every variable that is recognized belongs to a phi and keeps
the recurrence that was found for it, so a phi has one variable at most and the copies of different
variables have different names (`copyName_injective`). An index is decomposed into these variables
only.
-/
namespace LoopConflict.Access

open Loop (Forest LoopId)
open Program (Function Place Value)
open Evolution (Expr Context Query Grows Settles Ensures grows_pure grows_get settles_pure settles_get
  ensures_pure ensures_get)

/-! ### Recognition -/

/-- The variable is that of a phi, with the recurrence that is known for it. -/
structure InductionVariable.Known (c : Context) (iv : InductionVariable) : Prop where
  phi : c.function.IsPhi iv.phi
  evolution : c.memo.lookup (.result iv.phi) = some iv.recurrence

/-- A phi has one variable at most. -/
theorem InductionVariable.Known.eq_of_phi_eq {c : Context} {iv iv' : InductionVariable} (known : iv.Known c)
    (known' : iv'.Known c) (same : iv.phi = iv'.phi) : iv = iv' := by
  have recurrences : some iv.recurrence = some iv'.recurrence := by
    rw [← known.evolution, ← known'.evolution, same]
  obtain ⟨phi, loop, start, step⟩ := iv
  obtain ⟨phi', loop', start', step'⟩ := iv'
  simp only [recurrence, Option.some.injEq, Expr.recur.injEq] at recurrences same
  obtain ⟨rfl, rfl, rfl⟩ := recurrences
  rw [same]

theorem recurrence_of_asVariable? {l : LoopId} {phi : Place} {e : Expr} {iv : InductionVariable}
    (found : asVariable? l phi e = some iv) : iv.phi = phi ∧ iv.recurrence = e := by
  cases e with
  | recur m start step =>
    rw [asVariable?] at found
    split at found
    · rename_i same
      cases found
      exact ⟨rfl, by rw [InductionVariable.recurrence, same]⟩
    · cases found
  | _ => cases found

theorem isPhi_of_mem_phis {x : Loop.NaturalLoop} {f : Function} {p : Place} (member : p ∈ x.phis f) : f.IsPhi p := by
  have holds := List.mem_takeWhile_imp member
  split at holds
  · rename_i edges comment operation
    exact ⟨edges, comment, operation⟩
  · cases holds

theorem isPhi_of_counter? {x : Loop.NaturalLoop} {f : Function} {p : Place} (found : x.counter? f = some p) :
    f.IsPhi p := by
  simp only [Loop.NaturalLoop.counter?, Option.bind_eq_bind, Option.bind_eq_some_iff] at found
  obtain ⟨_, _, _, _, found⟩ := found
  exact isPhi_of_mem_phis (List.mem_of_find?_eq_some found)

theorem firstCounting_ensures (l : LoopId) (phis : List Place) :
    Ensures id (firstCounting l phis) fun found c =>
      (∀ phi ∈ phis, c.function.IsPhi phi) → ∀ iv, found = some iv → iv.Known c := by
  induction phis with
  | nil => exact ensures_pure fun _ _ _ found => by cases found
  | cons phi rest ih =>
    have others : ∀ c₀, Ensures id (firstCounting l rest) fun found c => Context.Extends c₀ c →
        (∀ p ∈ phi :: rest, c.function.IsPhi p) → ∀ iv, found = some iv → iv.Known c :=
      fun _ => ih.mono fun _ _ known _ phis => known fun p member => phis p (by simp [member])
    refine ensures_get fun c₀ => ?_
    dsimp only
    split
    · refine (Query.ensures_evolution (.result phi)).bind fun e => ?_
      split
      · rename_i iv isVariable
        obtain ⟨rfl, recurs⟩ := recurrence_of_asVariable? isVariable
        split
        · refine ensures_pure fun c evolution _ phis iv' found => ?_
          cases found
          exact ⟨phis iv.phi (by simp), recurs ▸ evolution⟩
        · exact (others c₀).mono fun _ _ known _ => known
      · exact (others c₀).mono fun _ _ known _ => known
    · exact others c₀

/-- A variable that is recognized is known from then on. -/
theorem recognize_ensures (l : LoopId) :
    Ensures id (recognize l) fun found c => ∀ iv, found = some iv → iv.Known c := by
  refine ensures_get fun c₀ => ?_
  dsimp only
  split
  · exact ensures_pure fun _ _ _ found => by cases found
  · rename_i x _
    have others : Ensures id (if x.latch?.isSome && (x.entry? c₀.forest.function).isSome then
        firstCounting l (x.phis c₀.forest.function) else pure none) fun found c =>
          c₀.Extends c → ∀ iv, found = some iv → iv.Known c := by
      split
      · refine (firstCounting_ensures l _).mono fun found c known later => known fun phi member => ?_
        rw [later.function]
        exact isPhi_of_mem_phis member
      · exact ensures_pure fun _ _ _ found => by cases found
    split
    · exact others
    · rename_i phi counter
      refine (Query.ensures_evolution (.result phi)).bind fun e => ?_
      split
      · rename_i iv isVariable
        obtain ⟨rfl, recurs⟩ := recurrence_of_asVariable? isVariable
        refine ensures_pure fun c evolution later iv' found => ?_
        cases found
        refine ⟨?_, recurs ▸ evolution⟩
        rw [Context.Extends.function later]
        exact isPhi_of_counter? counter
      · exact others.mono fun _ _ known _ => known

/-- What is ensured of a variable that is recognized is ensured of all of them. -/
theorem recognizeEach_all {P : InductionVariable → Context → Prop}
    (each : ∀ l, Ensures id (recognize l) fun found c => ∀ iv, found = some iv → P iv c) (loops : List LoopId) :
    Ensures id (recognizeEach loops) fun ivs c => ∀ iv ∈ ivs, P iv c := by
  induction loops with
  | nil => exact ensures_pure fun _ _ member => by cases member
  | cons l rest ih =>
    refine (each l).bind fun found => ih.bind fun ivs => ensures_pure fun c others first iv member => ?_
    rw [List.mem_append, Option.mem_toList] at member
    rcases member with here | later
    · exact first iv here
    · exact others iv later

theorem recognizeEach_ensures (loops : List LoopId) :
    Ensures id (recognizeEach loops) fun ivs c => ∀ iv ∈ ivs, iv.Known c :=
  recognizeEach_all recognize_ensures loops

/-- The variables of the loops of a function. -/
def inductionVariables (f : Function) : Variables :=
  (recognizeAll (Context.ofForest (Forest.ofFunction f))).1

/-- Different variables or different sides never share a copy. -/
theorem copyName_injective {c : Context} (named : c.function.PhisNamed) {iv iv' : InductionVariable}
    (known : iv.Known c) (known' : iv'.Known c) {side side' : Side}
    (same : copyName c.function side iv = copyName c.function side' iv') : side = side' ∧ iv = iv' := by
  obtain ⟨sides, phis⟩ := eq_of_copyName_eq named known.phi known'.phi same
  exact ⟨sides, known.eq_of_phi_eq known' phis⟩

/-! ### Decomposition -/

theorem grows_factorConst (n : Int64) (divisor : Option Int64) (rem : Expr) : Grows (factorConst n divisor rem) := by
  unfold factorConst
  split
  · exact grows_pure none
  · split
    · exact grows_pure none
    · exact (Query.settles_const _).grows.bind fun q => (Query.settles_const _).grows.bind fun r =>
        (Query.settles_sum [rem, r]).grows.bind fun rem => grows_pure _

theorem grows_factorProduct (k : Int64) (factors : List Expr) (divisor : Option Int64) (rem : Expr) :
    Grows (factorProduct k factors divisor rem) := by
  unfold factorProduct
  split
  · exact grows_pure none
  · split
    · exact grows_pure none
    · exact (Query.settles_const _).grows.bind fun c => (Query.settles_product _).grows.bind fun q => grows_pure _

theorem grows_factor (divisor e rem : Expr) : Grows (factor divisor e rem) := by
  fun_induction factor divisor e rem with
  | case1 => exact grows_pure _
  | case2 => exact (Query.settles_const 1).grows.bind fun q => grows_pure _
  | case3 => exact (Query.settles_const 0).grows.bind fun q => grows_pure _
  | case4 => exact grows_factorConst _ _ _
  | case5 => exact grows_factorProduct _ _ _ _
  | case6 rem _ l s t _ step start =>
    refine (Query.grows_noWrap _).bind fun noWrap => (Query.settles_const 0).grows.bind fun zero =>
      (step zero).bind fun factored => ?_
    split
    · exact grows_pure none
    · split
      · refine start.bind fun factored => ?_
        split
        · exact grows_pure none
        · exact (Query.settles_recur _ _ _ noWrap noWrap).grows.bind fun q => grows_pure _
      · exact grows_pure none
  | case7 => exact grows_pure none

/-- A peeling finds the coefficient of one of the variables. -/
theorem peel_ensures (ivs : Variables) (l : LoopId) (start step : Expr) :
    Ensures id (peel ivs l start step) fun answer _ =>
      ∀ coeff rest, answer = .ok (coeff, rest) → coeff.iv ∈ ivs := by
  unfold peel
  split
  · exact ensures_pure fun _ _ _ answer => by cases answer
  · rename_i iv found
    have member : iv ∈ ivs := List.mem_of_find?_eq_some found
    split
    · refine (Query.settles_const 0).grows.ensures.bind fun zero => ensures_pure fun _ _ coeff rest answer => ?_
      cases answer
      exact member
    · refine (Query.settles_const 0).grows.ensures.bind fun zero =>
        (grows_factor iv.step step zero).ensures.bind fun factored => ?_
      split
      · exact ensures_pure fun _ _ _ _ _ answer => by cases answer
      · split
        · split
          · refine (Query.settles_product _).grows.ensures.bind fun scaledStart =>
              (Query.settles_difference _ _).grows.ensures.bind fun rest =>
                ensures_pure fun _ _ _ _ _ coeff rest answer => ?_
            cases answer
            exact member
          · exact ensures_pure fun _ _ _ _ _ answer => by cases answer
        · exact ensures_pure fun _ _ _ _ _ answer => by cases answer

/-- The affine form uses the given variables only, and a constant is its own form. -/
def FormOf (ivs : Variables) (offset : Expr) (a : Affine) : Prop :=
  (∀ coeff ∈ a.coeffs, coeff.iv ∈ ivs) ∧ ∀ k, offset = .const k → a = ⟨[], k⟩

theorem peelAll_ensures (ivs : Variables) (peelings : Nat) (e : Expr) :
    Ensures id (peelAll ivs peelings e) fun answer _ => ∀ a, answer = some (.ok a) → FormOf ivs e a := by
  fun_induction peelAll ivs peelings e with
  | case1 peelings l start step ih =>
    refine (peel_ensures ivs l start step).bind fun peeled => ?_
    split
    · exact ensures_pure fun _ _ _ answer => by cases answer
    · rename_i coeff rest
      refine (ih rest).bind fun others => ?_
      split
      · rename_i a
        refine ensures_pure fun _ known first a' answer => ?_
        cases answer
        refine ⟨fun coeff' member => ?_, fun k same => by cases same⟩
        rcases List.mem_cons.mp member with rfl | later
        · exact first _ _ rfl
        · exact (known a rfl).1 coeff' later
      · rename_i notOk
        exact ensures_pure fun _ _ _ a answer => absurd answer (notOk a)
  | case2 => exact ensures_pure fun _ _ answer => by cases answer
  | case3 =>
    refine ensures_pure fun _ a answer => ?_
    cases answer
    exact ⟨fun coeff member => (by cases member), fun k same => (by cases same; rfl)⟩
  | case4 => exact ensures_pure fun _ _ answer => by cases answer

theorem decompose_ensures (ivs : Variables) (offset : Expr) :
    Ensures id (decompose ivs offset) fun answer _ => ∀ a, answer = .ok a → FormOf ivs offset a := by
  refine ensures_get fun c => (peelAll_ensures ivs _ offset).bind fun peeled => ?_
  split
  · exact ensures_pure fun _ known _ a answer => known a (by rw [answer])
  · exact ensures_pure fun _ _ _ a answer => by cases answer

end LoopConflict.Access
