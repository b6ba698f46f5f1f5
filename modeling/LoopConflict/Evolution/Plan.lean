import LoopConflict.Evolution.Table

/-!
What one call does, as data. To put expressions together, others have to be put together first, and some are
recorded. A plan says what is recorded and what is called for, one step after another, where each step may depend on
the answers so far. Who answers the calls is left open (`Plan.run`).
-/
namespace LoopConflict.Evolution

/-- Making expressions: the table records what is made. There is no answer if the depth of calls did
    not suffice. -/
abbrev Build := StateT Table Option

/-- The two ways to put expressions together. -/
inductive Combination where
  | sum
  | product
deriving DecidableEq, Repr

/-- What is called to put expressions together. -/
abbrev Callee := Combination → List Expr → Build Expr

/-- What is recorded and called for on the way to an answer. -/
inductive Plan (α : Type) where
  | done (a : α)
  /-- Records an expression, with a mark that is read off the table. -/
  | record (e : Expr) (noWrap : Table → Bool) (rest : Plan α)
  /-- Calls for expressions to be put together and goes on with the answer. -/
  | call (op : Combination) (ops : List Expr) (rest : Expr → Plan α)

namespace Plan

variable {α β : Type}

def bind : Plan α → (α → Plan β) → Plan β
  | .done a, k => k a
  | .record e noWrap rest, k => .record e noWrap (rest.bind k)
  | .call op ops rest, k => .call op ops fun e => (rest e).bind k

instance : Monad Plan where
  pure := .done
  bind := .bind

theorem bind_done (p : Plan α) : p.bind .done = p := by
  induction p with
  | done a => rfl
  | record e noWrap rest ih => rw [bind, ih]
  | call op ops rest ih =>
    rw [bind]
    exact congrArg _ (funext ih)

theorem bind_bind {γ : Type} (p : Plan α) (k : α → Plan β) (m : β → Plan γ) :
    (p.bind k).bind m = p.bind fun a => (k a).bind m := by
  induction p with
  | done a => rfl
  | record e noWrap rest ih => rw [bind, bind, bind, ih]
  | call op ops rest ih =>
    rw [bind, bind, bind]
    exact congrArg _ (funext ih)

instance : LawfulMonad Plan :=
  LawfulMonad.mk' Plan bind_done (fun _ _ => rfl) bind_bind

/-- Follows the plan, with `self` for the calls. -/
def run (self : Callee) : Plan α → Build α
  | .done a => pure a
  | .record e noWrap rest => do
    modify fun t => t.record e (noWrap t)
    rest.run self
  | .call op ops rest => do
    let e ← self op ops
    (rest e).run self

theorem run_bind (self : Callee) (p : Plan α) (k : α → Plan β) :
    (p >>= k).run self = p.run self >>= fun a => (k a).run self := by
  induction p with
  | done a => rfl
  | record e noWrap rest ih =>
    change (Plan.record e noWrap (rest >>= k)).run self = _
    rw [run, run, ih, bind_assoc]
  | call op ops rest ih =>
    change (Plan.call op ops fun e => rest e >>= k).run self = _
    rw [run, run, bind_assoc]
    exact congrArg _ (funext ih)

end Plan

/-- Records an expression. -/
def made (e : Expr) (noWrap : Table → Bool) : Plan Expr :=
  .record e noWrap (.done e)

/-- Calls for expressions to be put together. -/
def request (op : Combination) (ops : List Expr) : Plan Expr :=
  .call op ops .done

theorem run_request (self : Callee) (op : Combination) (ops : List Expr) : (request op ops).run self = self op ops :=
  bind_pure (self op ops)

end LoopConflict.Evolution
