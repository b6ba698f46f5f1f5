import LoopConflict.Proofs.Access.Induction
import LoopConflict.Proofs.Evolution.Memory

/-!
What the questions about accesses do to the memory of a context. Factoring and decomposing indices only puts
expressions together; recognizing variables and computing their bounds asks for evolutions and trip counts.
-/
namespace LoopConflict.Access

open Loop (LoopId)
open Program (Place Value)
open Evolution (Expr Context Query Quiet Keeps OfMemory quiet_pure quiet_get keeps_pure keeps_get)

/-! ### Affine forms -/

theorem quiet_factorConst (n : Int64) (divisor : Option Int64) (rem : Expr) : Quiet (factorConst n divisor rem) := by
  unfold factorConst
  split
  · exact quiet_pure none
  · split
    · exact quiet_pure none
    · exact (Query.quiet_const _).bind fun q => (Query.quiet_const _).bind fun r =>
        (Query.quiet_combine _ _).bind fun rem => quiet_pure _

theorem quiet_factorProduct (k : Int64) (factors : List Expr) (divisor : Option Int64) (rem : Expr) :
    Quiet (factorProduct k factors divisor rem) := by
  unfold factorProduct
  split
  · exact quiet_pure none
  · split
    · exact quiet_pure none
    · exact (Query.quiet_const _).bind fun c => (Query.quiet_combine _ _).bind fun q => quiet_pure _

theorem quiet_factor (divisor e rem : Expr) : Quiet (factor divisor e rem) := by
  fun_induction factor divisor e rem with
  | case1 => exact quiet_pure _
  | case2 => exact (Query.quiet_const 1).bind fun q => quiet_pure _
  | case3 => exact (Query.quiet_const 0).bind fun q => quiet_pure _
  | case4 => exact quiet_factorConst _ _ _
  | case5 => exact quiet_factorProduct _ _ _ _
  | case6 rem _ l s t _ step start =>
    refine quiet_get fun _ => (Query.quiet_const 0).bind fun zero => (step zero).bind fun factored => ?_
    split
    · exact quiet_pure none
    · split
      · refine start.bind fun factored => ?_
        split
        · exact quiet_pure none
        · exact (Query.quiet_recur _ _ _ _).bind fun q => quiet_pure _
      · exact quiet_pure none
  | case7 => exact quiet_pure none

theorem quiet_peel (ivs : Variables) (l : LoopId) (start step : Expr) : Quiet (peel ivs l start step) := by
  unfold peel
  split
  · exact quiet_pure _
  · split
    · exact (Query.quiet_const 0).bind fun zero => quiet_pure _
    · refine (Query.quiet_const 0).bind fun zero => (quiet_factor _ _ _).bind fun factored => ?_
      split
      · exact quiet_pure _
      · split
        · split
          · exact (Query.quiet_combine _ _).bind fun scaledStart =>
              (Query.quiet_difference _ _).bind fun rest => quiet_pure _
          · exact quiet_pure _
        · exact quiet_pure _

theorem quiet_peelAll (ivs : Variables) (peelings : Nat) (e : Expr) : Quiet (peelAll ivs peelings e) := by
  fun_induction peelAll ivs peelings e with
  | case1 peelings l start step ih =>
    refine (quiet_peel ivs l start step).bind fun peeled => ?_
    split
    · exact quiet_pure _
    · rename_i coeff rest
      refine (ih rest).bind fun others => ?_
      split <;> exact quiet_pure _
  | case2 => exact quiet_pure _
  | case3 => exact quiet_pure _
  | case4 => exact quiet_pure _

theorem quiet_decompose (ivs : Variables) (offset : Expr) : Quiet (decompose ivs offset) := by
  refine quiet_get fun c => (quiet_peelAll ivs _ offset).bind fun peeled => ?_
  split <;> exact quiet_pure _

/-! ### Variables and models -/

section

variable {I : Context → Prop} (evolutions : ∀ v, Keeps I (Query.evolution v))
include evolutions

theorem keeps_firstCounting (l : LoopId) (phis : List Place) : Keeps I (firstCounting l phis) := by
  induction phis with
  | nil => exact keeps_pure _
  | cons phi rest ih =>
    refine keeps_get fun c => ?_
    dsimp only
    split
    · refine (evolutions _).bind fun e => ?_
      split
      · split
        · exact keeps_pure _
        · exact ih
      · exact ih
    · exact ih

theorem keeps_recognize (l : LoopId) : Keeps I (recognize l) := by
  refine keeps_get fun c => ?_
  dsimp only
  split
  · exact keeps_pure _
  · rename_i x _
    have others : Keeps I (if x.latch?.isSome && (x.entry? c.forest.function).isSome then
        firstCounting l (x.phis c.forest.function) else pure none) := by
      split
      · exact keeps_firstCounting evolutions l _
      · exact keeps_pure _
    split
    · exact others
    · refine (evolutions _).bind fun e => ?_
      split
      · exact keeps_pure _
      · exact others

theorem keeps_bounds (memory : OfMemory I) (iv : InductionVariable) : Keeps I (bounds iv) := by
  refine keeps_get fun c => (Query.keeps_atScope memory evolutions _ _).bind fun seen => ?_
  cases seen with
  | const exit =>
    refine (Query.keeps_tripCount evolutions iv.loop).bind fun count => ?_
    split <;> exact keeps_pure _
  | _ => exact keeps_pure _

theorem keeps_recognizeEach (loops : List LoopId) : Keeps I (recognizeEach loops) := by
  induction loops with
  | nil => exact keeps_pure _
  | cons l rest ih => exact (keeps_recognize evolutions l).bind fun iv => ih.bind fun ivs => keeps_pure _

theorem keeps_recognizeAll : Keeps I recognizeAll :=
  keeps_get fun c => keeps_recognizeEach evolutions c.forest.ids

variable (memory : OfMemory I)
include memory

theorem keeps_stepIndex (step : Place) : Keeps I (stepIndex step) := by
  refine keeps_get fun c => ?_
  split
  · exact evolutions _
  · exact (Query.quiet_const _).keeps memory
  · exact (Query.quiet_const _).keeps memory

theorem keeps_declare (copies : List (String × InductionVariable)) : Keeps I (declare copies) := by
  induction copies with
  | nil => exact keeps_pure _
  | cons copy rest ih => exact (keeps_bounds evolutions memory copy.2).bind fun range => ih.bind fun vars => keeps_pure _

theorem keeps_conflictModel? (label : String) (pairs : List (MemoryAccess × MemoryAccess)) :
    Keeps I (conflictModel? label pairs) := by
  refine keeps_get fun c => ?_
  dsimp only
  split
  · exact keeps_pure _
  · exact (keeps_declare evolutions memory _).bind fun vars => keeps_pure _

theorem keeps_pairModel (label : String) (pair : MemoryAccess × MemoryAccess) : Keeps I (pairModel label pair) := by
  refine (keeps_conflictModel? evolutions memory label [pair]).bind fun model => ?_
  split
  · exact keeps_pure _
  · exact keeps_get fun c => keeps_pure _

end

end LoopConflict.Access
