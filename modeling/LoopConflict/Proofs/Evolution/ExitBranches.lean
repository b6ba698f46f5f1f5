import LoopConflict.Proofs.Evolution.TripCount

/-!
Branches that leave a loop. A block may branch on the comparison of a recurrence over the loop to a constant, with
the recurrence on either side and the way out on either side. However it is written, it is read as the same test
for staying in the loop (`CountedBranch.stays_exitTest`), so the iteration that is found is the first one in which
the branch goes out of the loop, and none is found only if there is none (`exitIteration?_first_leaving`).
-/
namespace LoopConflict.Evolution

open Loop (Forest LoopId)
open Program (Function Value Comparison)
open Execution (branch?)

/-- A branch on the comparison of a recurrence with constant start and step to a constant. -/
structure CountedBranch where
  comparison : Comparison
  start : Int64
  step : Int64
  limit : Int64
  /-- The constant is on the left. -/
  turned : Bool
  /-- Where control goes if the comparison holds. -/
  yes : Nat
  /-- Where control goes if it does not. -/
  no : Nat
deriving DecidableEq, Repr

namespace CountedBranch

/-- The operands of the comparison. -/
def operands (t : CountedBranch) (l : LoopId) : Expr × Expr :=
  let recurrence := .recur l (.const t.start) (.const t.step)
  if t.turned then (.const t.limit, recurrence) else (recurrence, .const t.limit)

/-- The comparison holds in an iteration, where the recurrence has its exact value. -/
def holds (t : CountedBranch) (k : Int) : Bool :=
  let value := t.start.toInt + t.step.toInt * k
  if t.turned then t.comparison.holds t.limit.toInt value else t.comparison.holds value t.limit.toInt

/-- Where control goes in an iteration. -/
def target (t : CountedBranch) (k : Int) : Nat :=
  if t.holds k then t.yes else t.no

/-- The comparison under which control stays in the loop. -/
def stay (t : CountedBranch) (F : Forest) (l : LoopId) : Comparison :=
  if F.contains l t.yes then t.comparison else t.comparison.negate

/-- The branch as a test for staying in the loop, with the recurrence on the left. -/
def exitTest (t : CountedBranch) (F : Forest) (l : LoopId) : ExitTest :=
  ⟨if t.turned then (t.stay F l).flip else t.stay F l, t.start, t.step, t.limit⟩

/-- The branch stands at the end of a block, with one target inside of the loop and the other one outside. Its
    operands are `x` and `y`, as they are told when they are asked for in that order. -/
structure Ends (t : CountedBranch) (c : Context) (l : LoopId) (b : Nat) (condition x y : Value) : Prop where
  branches : branch? c.function b = some (condition, t.yes, t.no)
  compares : c.function.definition? condition = some (.binary (.compare t.comparison) x y)
  left : (Query.evolution x c).1 = (t.operands l).1
  right : (Query.evolution y (Query.evolution x c).2).1 = (t.operands l).2
  leaves : c.forest.contains l t.no = !c.forest.contains l t.yes

variable {t : CountedBranch} {F : Forest} {c : Context} {l : LoopId} {b : Nat} {condition x y : Value}

/-- However the branch is written, the test says to stay exactly if the branch does. -/
theorem stays_exitTest (leaves : F.contains l t.no = !F.contains l t.yes) (k : Int) :
    (t.exitTest F l).stays k = F.contains l (t.target k) := by
  have target : F.contains l (t.target k) = (F.contains l t.yes == t.holds k) := by
    rw [CountedBranch.target]
    cases t.holds k <;> simp [leaves]
  rw [target, ExitTest.stays, ExitTest.tested, exitTest, stay, holds]
  cases t.turned <;> cases F.contains l t.yes <;> simp [Comparison.holds_flip, Comparison.holds_negate]

theorem oriented?_operands (t : CountedBranch) (l : LoopId) (cmp : Comparison) :
    oriented? l cmp (t.operands l).1 (t.operands l).2 =
      some (if t.turned then cmp.flip else cmp, .const t.start, .const t.step, t.limit) := by
  rw [operands]
  cases t.turned <;> simp [oriented?, against?]

theorem Ends.stayCondition?_eq (ends : t.Ends c l b condition x y) :
    stayCondition? c.forest l b = some (t.stay c.forest l, x, y) := by
  have branches := ends.branches
  have compares := ends.compares
  unfold branch? at branches
  split at branches
  · rename_i yes no condition' succs last
    cases branches
    have differ : c.forest.contains l t.yes ≠ c.forest.contains l t.no := by
      rw [ends.leaves]
      cases c.forest.contains l t.yes <;> simp
    rw [Context.function] at succs last compares
    simp only [stayCondition?, succs, last, if_neg differ, compares, stay]
  · cases branches

/-- The test is the one that is found at the end of the block. -/
theorem Ends.exitTest?_eq (ends : t.Ends c l b condition x y) :
    (Query.exitTest? l b c).1 = some (t.exitTest c.forest l) := by
  have left := ends.left
  have right := ends.right
  unfold Query.exitTest?
  rw [get_bind, ends.stayCondition?_eq]
  simp only [bind, StateT.bind]
  generalize Query.evolution x c = first at left right ⊢
  obtain ⟨e, c₁⟩ := first
  dsimp only at left right ⊢
  generalize Query.evolution y c₁ = second at right ⊢
  obtain ⟨e', c₂⟩ := second
  dsimp only at right ⊢
  rw [left, right, oriented?_operands]
  rfl

end CountedBranch

/-- An exit test is read with the right orientation, and none is missed: there is an answer exactly if the branch
    goes out of the loop in some iteration, and it is the first such iteration. -/
theorem exitIteration?_first_leaving {t : CountedBranch} {c : Context} {l : LoopId} {b : Nat} {condition x y : Value}
    (ends : t.Ends c l b condition x y) (moves : t.step ≠ 0) (fits : (t.exitTest c.forest l).Fits) :
    ((Query.exitIteration? l b c).1.isSome = true ↔
      ∃ k : Int64, 0 ≤ k.toInt ∧ c.forest.contains l (t.target k.toInt) = false) ∧
    ∀ n, (Query.exitIteration? l b c).1 = some n → 0 ≤ n.toInt ∧ c.forest.contains l (t.target n.toInt) = false ∧
      ∀ j : Int, 0 ≤ j → j < n.toInt → c.forest.contains l (t.target j) = true := by
  have found : (Query.exitIteration? l b c).1 = (t.exitTest c.forest l).failure? := by
    rw [exitIteration?_eq, ends.exitTest?_eq, Option.bind_some]
  have first : ∀ n, (Query.exitIteration? l b c).1 = some n → 0 ≤ n.toInt ∧
      c.forest.contains l (t.target n.toInt) = false ∧
        ∀ j : Int, 0 ≤ j → j < n.toInt → c.forest.contains l (t.target j) = true := by
    intro n isFirst
    simp only [← CountedBranch.stays_exitTest ends.leaves]
    exact ExitTest.failure?_spec fits (found.symm.trans isFirst)
  refine ⟨⟨fun answered => ?_, fun ⟨k, low, outside⟩ => ?_⟩, first⟩
  · obtain ⟨n, isFirst⟩ := Option.isSome_iff_exists.mp answered
    obtain ⟨low, outside, _⟩ := first n isFirst
    exact ⟨n, low, outside⟩
  · by_contra unanswered
    have none : (t.exitTest c.forest l).failure? = none := by
      rw [← found]
      exact Option.not_isSome_iff_eq_none.mp unanswered
    have stays := ExitTest.stays_of_failure?_eq_none fits moves none low
    rw [CountedBranch.stays_exitTest ends.leaves, outside] at stays
    cases stays

/-- The loop counts down in steps of three and is left if its counter is below one, which is written the other way
    round. -/
def countdown : Function where
  name := "countdown"
  receiver := none
  types := []
  params := []
  free := []
  globals := []
  constants := [⟨.int 10, .basic .int⟩, ⟨.int 1, .basic .int⟩, ⟨.int 3, .basic .int⟩]
  blocks := [
    ⟨"entry", [], [1], [⟨.jump, none, 0⟩]⟩,
    ⟨"for.loop", [0, 2], [3, 2], [
      ⟨.phi [.const 0, .result ⟨2, 0⟩] "i", some ("t0", .basic .int), 0⟩,
      ⟨.binary (.compare .gt) (.const 1) (.result ⟨1, 0⟩), some ("t1", .basic .bool), 0⟩,
      ⟨.branch (.result ⟨1, 1⟩), none, 0⟩]⟩,
    ⟨"for.body", [1], [1], [
      ⟨.binary .sub (.result ⟨1, 0⟩) (.const 2), some ("t2", .basic .int), 0⟩,
      ⟨.jump, none, 0⟩]⟩,
    ⟨"for.done", [1], [], [⟨.leave [], none, 0⟩]⟩]
  recover := none

/-- The counter is 10, 7, 4 and 1 as long as control stays, and -2 when it leaves. -/
theorem countdown_leaves : ∃ t : CountedBranch, t.comparison = .gt ∧ t.turned = true ∧ t.step = -3 ∧
    t.Ends (.asked countdown []) 0 1 (.result ⟨1, 1⟩) (.const 1) (.result ⟨1, 0⟩) ∧
    (t.exitTest (.ofFunction countdown) 0).Fits ∧ (Query.exitIteration? 0 1 (.asked countdown [])).1 = some 4 ∧
    t.target 4 = 3 ∧ ∀ j : Int, 0 ≤ j → j < 4 → (Forest.ofFunction countdown).contains 0 (t.target j) = true := by
  have ends : (CountedBranch.mk .gt 10 (-3) 1 true 3 2).Ends (.asked countdown []) 0 1 (.result ⟨1, 1⟩) (.const 1)
      (.result ⟨1, 0⟩) :=
    ⟨by decide +kernel, rfl, by decide +kernel, by decide +kernel, by decide +kernel⟩
  have fits : ((CountedBranch.mk .gt 10 (-3) 1 true 3 2).exitTest (.ofFunction countdown) 0).Fits := by decide +kernel
  have found : (Query.exitIteration? 0 1 (.asked countdown [])).1 = some 4 := by decide +kernel
  obtain ⟨_, _, before⟩ := (exitIteration?_first_leaving ends (by decide) fits).2 4 found
  exact ⟨_, rfl, rfl, rfl, ends, fits, found, by decide, before⟩

end LoopConflict.Evolution
