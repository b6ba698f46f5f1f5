import LoopConflict.Proofs.Evolution.Depth

/-!
How sums and products call for each other. What one call does is decided by the requests that it makes
(`Build.byRequests_run`, `Build.run_eq_of_calls`), and each of them is for something lighter (`Build.lighter_of_calls`).
So there is no endless chain of calls, and two things follow by induction along the calls: more depth than is needed
changes nothing, and the equations of sums and products, in which no depth occurs, have exactly one solution
(`recursion_ends`).
-/
namespace LoopConflict.Evolution

open Loop (Forest LoopId)
open LoopConflict.Evolution.Expr (weights)

/-- A call: how to put which expressions together, and what is recorded when it is made. -/
structure Request where
  op : Combination
  ops : List Expr
  table : Table
deriving DecidableEq

namespace Request

/-- What is answered to a request. -/
def answer (r : Request) (self : Callee) : Option (Expr × Table) :=
  self r.op r.ops r.table

/-- How deep the calls for a request go. -/
def depth (r : Request) : Nat :=
  Build.depthFor r.op (weights r.ops)

theorem depth_pos (r : Request) : 0 < r.depth :=
  Build.depthFor_pos r.op (weights r.ops)

theorem depth_le_enough (r : Request) : r.depth ≤ enough r.ops :=
  depthFor_le_enough r.op r.ops

end Request

namespace Build

variable {α β : Type}

/-! ### Requests -/

/-- All but one request are answered as before. -/
def refusing (refused : Request) (self : Callee) : Callee :=
  fun op ops table => if ⟨op, ops, table⟩ = refused then none else self op ops table

theorem answer_refusing_self (r : Request) (self : Callee) : r.answer (refusing r self) = none :=
  if_pos rfl

theorem answer_refusing {r refused : Request} (other : r ≠ refused) (self : Callee) :
    r.answer (refusing refused self) = r.answer self :=
  if_neg other

/-- What is made is decided by the requests that are made for it: if one of them is refused there is nothing, and
    whoever answers them in the same way gets the same. -/
def ByRequests (x : Callee → Build α) : Prop :=
  ∀ self table, ∃ requests : List Request, (∀ r ∈ requests, x (refusing r self) table = none) ∧
    ∀ self', (∀ r ∈ requests, r.answer self' = r.answer self) → x self' table = x self table

theorem byRequests_request (op : Combination) (ops : List Expr) : ByRequests fun self => self op ops := by
  intro self table
  refine ⟨[⟨op, ops, table⟩], ?_, fun self' same => same _ (List.mem_singleton_self _)⟩
  intro r member
  rw [List.mem_singleton.mp member]
  exact answer_refusing_self ⟨op, ops, table⟩ self

theorem byRequests_fixed (x : Build α) : ByRequests fun _ => x :=
  fun _ _ => ⟨[], by simp, fun _ _ => rfl⟩

theorem ByRequests.bind {x : Callee → Build α} {k : α → Callee → Build β} (first : ByRequests x)
    (rest : ∀ a, ByRequests (k a)) : ByRequests fun self => x self >>= fun a => k a self := by
  intro self table
  have run : ∀ self, (x self >>= fun a => k a self) table = (x self table).bind fun p => k p.1 self p.2 :=
    fun _ => rfl
  simp only [run]
  obtain ⟨requests, refused, same⟩ := first self table
  cases here : x self table with
  | none =>
    refine ⟨requests, fun r member => ?_, fun self' agree => ?_⟩
    · rw [refused r member]
      rfl
    · rw [same self' agree, here]
      rfl
  | some p =>
    obtain ⟨later, refused', same'⟩ := rest p.1 self p.2
    refine ⟨requests ++ later, fun r member => ?_, fun self' agree => ?_⟩
    · by_cases early : r ∈ requests
      · rw [refused r early]
        rfl
      · -- The first part does not make this request, so it goes through and the second part makes it.
        have through : x (refusing r self) table = x self table := by
          refine same _ fun r' member' => answer_refusing ?_ self
          rintro rfl
          exact early member'
        rw [through, here]
        exact refused' r ((List.mem_append.mp member).resolve_left early)
    · rw [same self' fun r member => agree r (List.mem_append_left _ member), here]
      exact same' self' fun r member => agree r (List.mem_append_right _ member)

/-- What a plan makes is decided by the calls in it. -/
theorem byRequests_run (p : Plan α) : ByRequests fun self => p.run self := by
  induction p with
  | done a => exact byRequests_fixed (pure a)
  | record e noWrap rest ih => exact fun self table => ih self (table.record e (noWrap table))
  | call op ops rest ih => exact (byRequests_request op ops).bind ih

/-! ### Calls -/

theorem answers_together (F : Forest) (op : Combination) (ops : List Expr) :
    (together F op ops).Answers fun e => e.weight ≤ op.weight ops :=
  answers_canonical F _ op (depthFor_le_enough op ops)

/-- One call makes the other, with these records: it gets nowhere if the other is refused, while all else is
    answered. -/
def Calls (F : Forest) (inner outer : Request) : Prop :=
  (outer.op.plan F outer.ops).run (refusing inner (together F)) outer.table = none

variable {F : Forest}

/-- A call depends on nothing but the calls that it makes. -/
theorem run_eq_of_calls {outer : Request} {self : Callee}
    (same : ∀ inner, Calls F inner outer → inner.answer self = inner.answer (together F)) :
    (outer.op.plan F outer.ops).run self outer.table = (outer.op.plan F outer.ops).run (together F) outer.table := by
  obtain ⟨requests, refused, decided⟩ := byRequests_run (outer.op.plan F outer.ops) (together F) outer.table
  exact decided self fun r member => same r (refused r member)

/-- What is called for is lighter. -/
theorem lighter_of_calls {inner outer : Request} (calls : Calls F inner outer) : inner.depth < outer.depth := by
  by_contra heavy
  have answers : ((outer.op.plan F outer.ops).run (refusing inner (together F))).Answers
      fun e => e.weight ≤ outer.op.weight outer.ops := by
    refine answers_plan F outer.op fun op ops lighter table => ?_
    have other : (⟨op, ops, table⟩ : Request) ≠ inner := by
      rintro rfl
      exact heavy lighter
    obtain ⟨e, table', made, holds⟩ := answers_together F op ops table
    exact ⟨e, table', (answer_refusing other (together F)).trans made, holds⟩
  obtain ⟨e, table, made, _⟩ := answers outer.table
  rw [calls] at made
  cases made

/-- The steps of two recurrences cancel out. Their sum goes on with the start and with what varies beside it. -/
example :
    let x := Expr.unknown 0 (.param 0)
    let y := Expr.unknown 1 (.result ⟨1, 0⟩)
    Calls ⟨default, [⟨1, [1], [1], none, [], 1⟩]⟩
      ⟨.sum, [y, .sum 3 [x], .const 0],
        ((Table.record [] (.const 3) false).record (.sum 3 [x]) false).record (.const 0) false⟩
      ⟨.sum, [.recur 0 x (.const 1), .recur 0 (.const 3) (.const (-1)), y], []⟩ := by
  show _ = none
  decide +kernel

theorem wellFounded_calls (F : Forest) : WellFounded (Calls F) :=
  Subrelation.wf lighter_of_calls (InvImage.wf Request.depth Nat.lt_wfRel.wf)

/-- Whatever the depth, if it suffices, the answer is that of one call and of all that it calls for. -/
theorem canonical_eq_run (r : Request) (depth : Nat) (deep : r.depth ≤ depth) :
    r.answer (canonical F depth) = (r.op.plan F r.ops).run (together F) r.table := by
  induction r using (wellFounded_calls F).induction generalizing depth with
  | _ r ih =>
    cases depth with
    | zero =>
      have := r.depth_pos
      omega
    | succ depth =>
      refine run_eq_of_calls fun inner calls => ?_
      have lighter := lighter_of_calls calls
      rw [ih inner calls depth (by omega)]
      exact (ih inner calls (enough inner.ops) inner.depth_le_enough).symm

theorem together_eq_run (op : Combination) (ops : List Expr) :
    together F op ops = (op.plan F ops).run (together F) :=
  funext fun table => canonical_eq_run ⟨op, ops, table⟩ (enough ops) (Request.depth_le_enough _)

/-- More depth than is given changes nothing. -/
theorem canonical_eq_together (op : Combination) {ops : List Expr} {depth : Nat} (deep : enough ops ≤ depth) :
    canonical F depth op ops = together F op ops := by
  funext table
  rw [together_eq_run]
  exact canonical_eq_run ⟨op, ops, table⟩ depth (Nat.le_trans (Request.depth_le_enough _) deep)

/-- What satisfies the equations of sums and products can only be this, by induction along the calls. -/
theorem eq_together_of_solves {self : Callee} (solves : ∀ op ops, self op ops = (op.plan F ops).run self) :
    self = together F := by
  have each : ∀ r : Request, r.answer self = r.answer (together F) := by
    intro r
    induction r using (wellFounded_calls F).induction with
    | _ r ih =>
      rw [Request.answer, Request.answer, solves, together_eq_run]
      exact run_eq_of_calls ih
  funext op ops table
  exact each ⟨op, ops, table⟩

end Build

/-- Sums and products come to an end, in every context and for all expressions. There is no endless chain of calls,
    each made by the one before. The equations by which sums and products call for each other have a single solution.
    Whatever is put together has an answer, and it is the same however much deeper the calls might go. -/
theorem recursion_ends (c : Context) :
    WellFounded (Build.Calls c.forest) ∧
    (∀ self : Callee, (∀ op ops, self op ops = (op.plan c.forest ops).run self) ↔ self = together c.forest) ∧
    ∀ op ops, ∃ e t, Query.combine op ops c = (e, { c with table := t }) ∧
      ∀ depth, enough ops ≤ depth → canonical c.forest depth op ops c.table = some (e, t) := by
  refine ⟨Build.wellFounded_calls c.forest, fun self => ⟨Build.eq_together_of_solves, ?_⟩, fun op ops => ?_⟩
  · rintro rfl
    exact Build.together_eq_run
  · obtain ⟨e, t, found, combined⟩ := Query.exists_combine op ops c
    refine ⟨e, t, combined, fun depth deep => ?_⟩
    rw [Build.canonical_eq_together op deep]
    exact found

end LoopConflict.Evolution
