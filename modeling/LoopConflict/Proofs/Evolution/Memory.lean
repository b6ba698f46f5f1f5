import LoopConflict.Proofs.Evolution.Stability

/-!
What questions do to the memory of a context. Only evolutions are remembered: putting expressions together
leaves the memory alone (`Quiet`), and all other questions ask for evolutions. So whatever is said of the
memory only, and stays true when an evolution is asked for, is true after all questions (`OfMemory.asked`).
-/
namespace LoopConflict.Evolution

open Loop (Forest LoopId NaturalLoop)
open Program (Function Value Place Operation)

variable {α β σ : Type}

/-- From a state with the invariant the computation leads to one, and its answer satisfies the condition. -/
def Upholds (I : σ → Prop) (m : StateM σ α) (P : α → Prop) : Prop :=
  ∀ s, I s → I (m s).2 ∧ P (m s).1

section

variable {I : σ → Prop} {P Q : α → Prop} {R : β → Prop}

theorem upholds_pure {x : α} (holds : P x) : Upholds I (pure x) P :=
  fun _ invariant => ⟨invariant, holds⟩

theorem Upholds.bind {m : StateM σ α} {k : α → StateM σ β} (first : Upholds I m P)
    (rest : ∀ x, P x → Upholds I (k x) R) : Upholds I (m >>= k) R := by
  intro s invariant
  obtain ⟨invariant', holds⟩ := first s invariant
  exact rest (m s).1 holds (m s).2 invariant'

theorem upholds_get {k : σ → StateM σ α} (rest : ∀ s, I s → Upholds I (k s) P) : Upholds I (get >>= k) P :=
  fun s invariant => rest s invariant s invariant

end

/-- The question leaves the forest and the memory alone. -/
structure Quiet (q : Query α) : Prop where
  forest : ∀ c, (q c).2.forest = c.forest
  memo : ∀ c, (q c).2.memo = c.memo

theorem Quiet.bind {q : Query α} {k : α → Query β} (first : Quiet q) (rest : ∀ x, Quiet (k x)) : Quiet (q >>= k) :=
  ⟨fun c => ((rest _).forest _).trans (first.forest c), fun c => ((rest _).memo _).trans (first.memo c)⟩

theorem quiet_pure (x : α) : Quiet (pure x) :=
  ⟨fun _ => rfl, fun _ => rfl⟩

theorem quiet_get {k : Context → Query α} (rest : ∀ c, Quiet (k c)) : Quiet (get >>= k) :=
  ⟨fun c => (rest c).forest c, fun c => (rest c).memo c⟩

namespace Query

theorem quiet_build (plain : Expr) (p : Plan Expr) : Quiet (build plain p) := by
  refine ⟨fun c => ?_, fun c => ?_⟩ <;> unfold build <;> split <;> rfl

theorem quiet_const (n : Int64) : Quiet (const n) :=
  quiet_build _ _

theorem quiet_recur (l : LoopId) (start step : Expr) (noWrap : Bool) : Quiet (recur l start step noWrap) :=
  quiet_build _ _

/-- A recurrence whose step is zero is its start. -/
theorem recur_cases (l : LoopId) (start step : Expr) (noWrap : Bool) (c : Context) :
    (step.isZero = true ∧ (recur l start step noWrap c).1 = start) ∨
      (step.isZero = false ∧ (recur l start step noWrap c).1 = .recur l start step) := by
  cases zero : step.isZero with
  | true =>
    have made : (recurrence l start step fun _ => noWrap).run (together c.forest) c.table = some (start, c.table) := by
      rw [recurrence, if_pos zero]
      rfl
    exact .inl ⟨rfl, by rw [recur, build_of_run made]⟩
  | false =>
    have made : (recurrence l start step fun _ => noWrap).run (together c.forest) c.table =
        some (.recur l start step, c.table.record (.recur l start step) noWrap) := by
      rw [recurrence, if_neg (by simp [zero])]
      rfl
    exact .inr ⟨rfl, by rw [recur, build_of_run made]⟩

theorem quiet_combine (op : Combination) (ops : List Expr) : Quiet (combine op ops) :=
  quiet_build _ _

theorem quiet_negate (e : Expr) : Quiet (negate e) :=
  (quiet_const _).bind fun _ => quiet_combine _ _

theorem quiet_difference (x y : Expr) : Quiet (difference x y) :=
  (quiet_negate y).bind fun _ => quiet_combine _ _

theorem quiet_unknown (v : Value) : Quiet (unknown v) := by
  refine ⟨fun c => ?_, unknown_memo v⟩
  unfold unknown
  split <;> rfl

end Query

/-- The condition is about the forest and the memory of a context. -/
def OfMemory (I : Context → Prop) : Prop :=
  ∀ {c c' : Context}, c'.forest = c.forest → c'.memo = c.memo → I c → I c'

/-- The condition stays true when the question is asked. -/
def Keeps (I : Context → Prop) (q : Query α) : Prop :=
  ∀ c, I c → I (q c).2

section

variable {I : Context → Prop}

theorem keeps_pure (x : α) : Keeps I (pure x : Query α) :=
  fun _ holds => holds

theorem Keeps.bind {q : Query α} {k : α → Query β} (first : Keeps I q) (rest : ∀ x, Keeps I (k x)) : Keeps I (q >>= k) :=
  fun c holds => rest (q c).1 (q c).2 (first c holds)

theorem keeps_get {k : Context → Query α} (rest : ∀ c, Keeps I (k c)) : Keeps I (get >>= k) :=
  fun c holds => rest c c holds

theorem Quiet.keeps {q : Query α} (quiet : Quiet q) (memory : OfMemory I) : Keeps I q :=
  fun c holds => memory (quiet.forest c) (quiet.memo c) holds

variable (memory : OfMemory I)
include memory

/-! ### Evolutions of operands -/

section

variable {self : Value → Query Expr} (finds : ∀ v, Keeps I (self v))
include finds

theorem keeps_evolutionOfCounting (phi : Place) (c : Counting) : Keeps I (evolutionOfCounting self phi c) := by
  have recurs : ∀ step, Keeps I (do
      if ← Query.isInvariant c.loop step then
        let start ← self c.start
        Query.recur c.loop start step true
      else Query.unknown (.result phi)) := by
    intro step
    refine keeps_get fun _ => ?_
    split
    · exact (finds c.start).bind fun start => (Query.quiet_recur _ _ _ _).keeps memory
    · exact (Query.quiet_unknown _).keeps memory
  refine (finds c.step).bind fun step => ?_
  dsimp only
  split
  · exact ((Query.quiet_negate step).keeps memory).bind recurs
  · exact (keeps_pure step).bind recurs

theorem keeps_evolutionOfOperation (F : Forest) (p : Place) (operation : Operation) :
    Keeps I (evolutionOfOperation self F p operation) := by
  unfold evolutionOfOperation
  dsimp only
  split
  · exact (finds _).bind fun _ => (finds _).bind fun _ => (Query.quiet_combine _ _).keeps memory
  · exact (finds _).bind fun _ => (finds _).bind fun _ => (Query.quiet_difference _ _).keeps memory
  · exact (finds _).bind fun _ => (finds _).bind fun _ => (Query.quiet_combine _ _).keeps memory
  · split
    · split
      · exact (finds _).bind fun _ => ((Query.quiet_const _).bind fun _ => Query.quiet_combine _ _).keeps memory
      · exact (Query.quiet_unknown _).keeps memory
    · exact (Query.quiet_unknown _).keeps memory
  · split
    · exact finds _
    · exact (Query.quiet_unknown _).keeps memory
  · split
    · exact finds _
    · exact (Query.quiet_unknown _).keeps memory
  · split
    · exact keeps_evolutionOfCounting memory finds p _
    · exact (Query.quiet_unknown _).keeps memory
  · exact (Query.quiet_unknown _).keeps memory

end

/-! ### Other questions -/

namespace Query

variable (evolutions : ∀ v, Keeps I (evolution v))
include evolutions

omit memory in
theorem keeps_exitIteration? (l : LoopId) (b : Nat) : Keeps I (exitIteration? l b) := by
  refine keeps_get fun c => ?_
  cases stayCondition? c.forest l b with
  | none => exact keeps_pure _
  | some condition =>
    refine (evolutions _).bind fun x => (evolutions _).bind fun y => ?_
    split <;> exact keeps_pure _

omit memory in
theorem keeps_tripCountFrom (l : LoopId) (x : NaturalLoop) (candidates : List Nat) :
    Keeps I (tripCountFrom l x candidates) := by
  induction candidates with
  | nil => exact keeps_pure _
  | cons b rest ih =>
    refine (keeps_exitIteration? evolutions l b).bind fun exit => ?_
    cases exit with
    | some n => exact keeps_pure _
    | none => exact ih

omit memory in
theorem keeps_tripCount (l : LoopId) : Keeps I (tripCount l) := by
  refine keeps_get fun c => ?_
  dsimp only
  cases c.forest.loop? l with
  | none => exact keeps_pure _
  | some x => exact keeps_tripCountFrom evolutions l x _

omit memory evolutions

mutual

theorem keeps_atScope (memory : OfMemory I) (evolutions : ∀ v, Keeps I (evolution v)) (scope : Option LoopId) :
    ∀ e, Keeps I (atScope scope e)
  | .recur l s t => by
    rw [atScope]
    refine keeps_get fun _ => (keeps_atScope memory evolutions scope s).bind fun start =>
      (keeps_atScope memory evolutions scope t).bind fun step => keeps_get fun c => ?_
    split
    · exact (quiet_recur _ _ _ _).keeps memory
    · refine (keeps_tripCount evolutions l).bind fun count => ?_
      cases count with
      | none => exact (quiet_recur _ _ _ _).keeps memory
      | some count =>
        exact ((quiet_const _).bind fun n => (quiet_combine _ _).bind fun growth => quiet_combine _ _).keeps memory
  | .sum k ts => by
    rw [atScope]
    exact (keeps_allAtScope memory evolutions scope ts).bind fun terms => (quiet_combine _ _).keeps memory
  | .product k ts => by
    rw [atScope]
    exact (keeps_allAtScope memory evolutions scope ts).bind fun factors => (quiet_combine _ _).keeps memory
  | .const n => by
    rw [atScope]
    · exact keeps_pure _
    all_goals simp
  | .unknown number v => by
    rw [atScope]
    · exact keeps_pure _
    all_goals simp

theorem keeps_allAtScope (memory : OfMemory I) (evolutions : ∀ v, Keeps I (evolution v)) (scope : Option LoopId) :
    ∀ es, Keeps I (allAtScope scope es)
  | [] => by
    rw [allAtScope]
    exact keeps_pure _
  | e :: es => by
    rw [allAtScope]
    exact (keeps_atScope memory evolutions scope e).bind fun first =>
      (keeps_allAtScope memory evolutions scope es).bind fun rest => keeps_pure _

end

end Query

end

/-! ### Whatever was asked before -/

/-- What a context can be asked. -/
inductive Question where
  | evolution (v : Value)
  | constant (n : Int64)
  | unknown (v : Value)
  | recurrence (l : LoopId) (start step : Expr) (noWrap : Bool)
  | sum (ops : List Expr)
  | product (ops : List Expr)
  | negation (e : Expr)
  | difference (x y : Expr)
  | invariance (l : LoopId) (e : Expr)
  | tripCount (l : LoopId)
  | atScope (scope : Option LoopId) (e : Expr)

/-- The context after a question. -/
def Question.ask (c : Context) : Question → Context
  | .evolution v => (Query.evolution v c).2
  | .constant n => (Query.const n c).2
  | .unknown v => (Query.unknown v c).2
  | .recurrence l start step noWrap => (Query.recur l start step noWrap c).2
  | .sum ops => (Query.sum ops c).2
  | .product ops => (Query.product ops c).2
  | .negation e => (Query.negate e c).2
  | .difference x y => (Query.difference x y c).2
  | .invariance l e => (Query.isInvariant l e c).2
  | .tripCount l => (Query.tripCount l c).2
  | .atScope scope e => (Query.atScope scope e c).2

/-- The context of a function after some questions. -/
def Context.asked (f : Function) (questions : List Question) : Context :=
  questions.foldl Question.ask (.ofForest (.ofFunction f))

theorem Context.asked_append (f : Function) (questions more : List Question) :
    asked f (questions ++ more) = more.foldl Question.ask (asked f questions) :=
  List.foldl_append

theorem OfMemory.ask {I : Context → Prop} (memory : OfMemory I) (evolutions : ∀ v, Keeps I (Query.evolution v))
    {c : Context} (holds : I c) (question : Question) : I (question.ask c) := by
  cases question with
  | evolution v => exact evolutions v c holds
  | constant n => exact (Query.quiet_const n).keeps memory c holds
  | unknown v => exact (Query.quiet_unknown v).keeps memory c holds
  | recurrence l start step noWrap => exact (Query.quiet_recur l start step noWrap).keeps memory c holds
  | sum ops => exact (Query.quiet_combine .sum ops).keeps memory c holds
  | product ops => exact (Query.quiet_combine .product ops).keeps memory c holds
  | negation e => exact (Query.quiet_negate e).keeps memory c holds
  | difference x y => exact (Query.quiet_difference x y).keeps memory c holds
  | invariance l e => exact holds
  | tripCount l => exact Query.keeps_tripCount evolutions l c holds
  | atScope scope e => exact Query.keeps_atScope memory evolutions scope e c holds

/-- A condition on the memory stays true whatever is asked, if it does when an evolution is asked for. -/
theorem OfMemory.asked {I : Context → Prop} (memory : OfMemory I) (evolutions : ∀ v, Keeps I (Query.evolution v))
    {c : Context} (holds : I c) (questions : List Question) : I (questions.foldl Question.ask c) := by
  induction questions generalizing c with
  | nil => exact holds
  | cons question rest ih => exact ih (memory.ask evolutions holds question)

/-- What was known is known whatever is asked. -/
theorem Context.extends_asked (c : Context) (questions : List Question) : c.Extends (questions.foldl Question.ask c) := by
  have memory : OfMemory c.Extends :=
    fun forest memo earlier => earlier.trans (.of_eq forest memo)
  exact memory.asked (fun v _ earlier => earlier.trans ((Query.settles_evolution v).grows _)) (.refl c) questions

end LoopConflict.Evolution
