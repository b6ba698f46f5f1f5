import LoopConflict.Proofs.Evolution.Constants
import LoopConflict.Proofs.Evolution.Kinds
import LoopConflict.Proofs.Evolution.Sessions

/-!
Recurrences never stand still. One with step zero is its start instead, wherever it would come up, so a step can only
be zero in what was made of such recurrences (`kind_moves`, `closed_moving`). Since there are none to begin with, there
are none in what a context remembers, whatever it was asked and of whatever function (`moving_asked`).
-/
namespace LoopConflict.Evolution

open Loop (Forest LoopId)
open Program (Function Value)

variable {F : Forest} {c : Context}

namespace Expr

/-- No recurrence in the expression has step zero. -/
def Moves (e : Expr) : Prop :=
  e.EachRecurrence fun _ _ t => t ≠ .const 0

theorem moves_recur {l : LoopId} {s t : Expr} (start : s.Moves) (step : t.Moves) (notZero : t.isZero = false) :
    (recur l s t).Moves := by
  refine eachRecurrence_recur start step ?_
  rintro rfl
  cases notZero

end Expr

theorem kind_moves (F : Forest) : Kind F Expr.Moves := by
  refine kind_eachRecurrence fun _ notZero _ => ?_
  rintro rfl
  cases notZero

namespace Query

theorem moves_combine (op : Combination) {ops : List Expr} (each : ∀ e ∈ ops, e.Moves) : (combine op ops c).1.Moves :=
  Fulfils.combine (kind_moves c.forest).canonical op each

theorem moves_recur {l : LoopId} {start step : Expr} (isStart : start.Moves) (isStep : step.Moves) (noWrap : Bool) :
    (recur l start step noWrap c).1.Moves := by
  rcases recur_cases l start step noWrap c with ⟨_, made⟩ | ⟨notZero, made⟩
  · rw [made]
    exact isStart
  · rw [made]
    exact Expr.moves_recur isStart isStep notZero

end Query

/-- No recurrence of what is remembered has step zero. -/
structure Moving (F : Forest) (c : Context) : Prop where
  forest : c.forest = F
  memo : ∀ v e, c.memo.lookup v = some e → e.Moves

theorem ofMemory_moving : OfMemory (Moving F) :=
  fun forest memo moving => ⟨forest.trans moving.forest, fun v e known => moving.memo v e (memo ▸ known)⟩

theorem Moving.remember (moving : Moving F c) {v : Value} {e : Expr} (moves : e.Moves) :
    Moving F { c with memo := (v, e) :: c.memo } := by
  refine ⟨moving.forest, fun w e' known => ?_⟩
  rw [List.lookup_cons] at known
  split at known
  · cases known
    exact moves
  · exact moving.memo w e' known

theorem Moving.leads {α : Type} {q : Query α} (moving : Moving F c) (quiet : Quiet q) {P : α → Prop}
    (answer : P (q c).1) : Leads (Moving F) (fun _ e => e.Moves) c q fun _ x => P x :=
  ⟨quiet.keeps ofMemory_moving c moving, fun _ moves => moves, answer⟩

/-- Whatever recurrences are asked for, those with step zero are not made. -/
theorem closed_moving (F : Forest) :
    Closed F (fun _ _ _ => True) (Moving F) (fun _ e => e.Moves) fun _ _ => True where
  forest moving := moving.forest
  operand _ moves isPart := moves.operand isPart
  constant n moving := by
    refine moving.leads (Query.quiet_const n) ?_
    rw [Query.const_fst]
    exact Expr.eachRecurrence_const n
  unknown v moving := by
    refine moving.leads (Query.quiet_unknown v) ⟨?_, trivial⟩
    obtain ⟨number, same⟩ := Query.exists_unknown v _
    exact same ▸ Expr.eachRecurrence_unknown number v
  combination op _ moving each := by
    refine moving.leads (Query.quiet_combine op _) (Query.moves_combine op fun e member => ?_)
    rcases each e member with moves | ⟨n, rfl⟩
    · exact moves
    · exact Expr.eachRecurrence_const n
  remembered moving known := ⟨moving.memo _ _ known, trivial⟩
  remember moving moves _ := ⟨moving.remember moves, fun _ kept => kept, trivial⟩
  described _ _ _ := trivial
  recurrence noWrap moving _ isStart isStep :=
    moving.leads (Query.quiet_recur _ _ _ noWrap) (Query.moves_recur isStart isStep noWrap)
  counting moving _ _ isStart _ isStep _ :=
    moving.leads (Query.quiet_recur _ _ _ true) (Query.moves_recur isStart isStep true)
  seen noWrap moving _ isStart isStep _ _ :=
    moving.leads (Query.quiet_recur _ _ _ noWrap) (Query.moves_recur isStart isStep noWrap)

theorem keeps_moving (v : Value) : Keeps (Moving F) (Query.evolution v) :=
  fun _ moving => ((closed_moving F).evolution v moving).holds

/-- Recurrences that are remembered never stand still, whatever was asked. -/
theorem moving_asked (f : Function) (questions : List Question) : Moving (.ofFunction f) (.asked f questions) := by
  have fresh : Moving (.ofFunction f) (.ofForest (.ofFunction f)) := ⟨rfl, fun v e known => by cases known⟩
  exact ofMemory_moving.asked keeps_moving fresh questions

end LoopConflict.Evolution
