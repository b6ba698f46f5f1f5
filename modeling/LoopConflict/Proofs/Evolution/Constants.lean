import LoopConflict.Loop.Counter
import LoopConflict.Proofs.Evolution.Memory
import LoopConflict.Proofs.Program.Availability
import Mathlib.Data.List.Basic

/-!
Constants evolve as constants. An evolution is found through a limited number of values. The limit is not
reached, since a value on the way counts as known from then on (`unanswered_pending_lt`). So what is a constant, also
under another type, is found to be one whatever was asked before, and a phi that grows by a constant has a
recurrence with that step (`Steady`).
-/
namespace LoopConflict.Evolution

open Loop (Forest LoopId isConstant)
open Program (Function Value Place Operation)

variable {F : Forest} {c : Context} {v : Value} {n : Int64}

/-! ### The limit -/

/-- The context while the evolution of a value is being found. -/
def Context.pending (v : Value) (c : Context) : Context :=
  { (Query.unknown v c).2 with memo := (v, (Query.unknown v c).1) :: c.memo }

theorem Context.pending_forest (v : Value) (c : Context) : (c.pending v).forest = c.forest :=
  (Query.quiet_unknown v).forest c

theorem Context.pending_function (v : Value) (c : Context) : (c.pending v).function = c.function :=
  congrArg Forest.function (c.pending_forest v)

/-- The number of instructions whose evolution was not asked for. -/
def unanswered (c : Context) : Nat :=
  (c.function.places.filter fun p => (c.memo.lookup (.result p)).isNone).length

theorem unanswered_le {c' : Context} (later : c.Extends c') : unanswered c' ≤ unanswered c := by
  rw [unanswered, unanswered, later.function]
  refine (List.monotone_filter_right _ fun p none => ?_).length_le
  cases known : c.memo.lookup (.result p) with
  | none => rfl
  | some e =>
    rw [later.memo _ e known] at none
    cases none

/-- One instruction less is left while an evolution is being found. -/
theorem unanswered_pending_lt {p : Place} (place : p ∈ c.function.places) (fresh : c.memo.lookup (.result p) = none) :
    unanswered (c.pending (.result p)) < unanswered c := by
  have smaller : List.Sublist
      (c.function.places.filter fun q => ((c.pending (.result p)).memo.lookup (.result q)).isNone)
      (c.function.places.filter fun q => (c.memo.lookup (.result q)).isNone) := by
    refine List.monotone_filter_right _ fun q none => ?_
    rw [Context.pending, List.lookup_cons] at none
    split at none
    · cases none
    · exact none
  have member : p ∈ c.function.places.filter fun q => (c.memo.lookup (.result q)).isNone :=
    List.mem_filter.mpr ⟨place, by rw [fresh]; rfl⟩
  rw [unanswered, c.pending_function]
  refine lt_of_le_of_ne smaller.length_le fun same => ?_
  rw [← smaller.eq_of_length same, List.mem_filter, Context.pending, List.lookup_cons] at member
  simp at member

/-! ### What is expected of evolutions -/

/-- The integer is a constant, possibly under another type. -/
def IsConstant (f : Function) (n : Int64) (v : Value) : Prop :=
  isConstant f n v = true ∧ f.isInteger v = true

/-- The expression of a phi that counts, if it grows by a constant, is a recurrence with that step, and with that
    start if it starts at a constant. -/
def OfCounting (f : Function) (k : Counting) (e : Expr) : Prop :=
  ∀ n, IsConstant f n k.step → n ≠ 0 → k.down = false →
    ∃ start, e = .recur k.loop start (.const n) ∧ ∀ m, IsConstant f m k.start → start = .const m

/-- A constant is one, and a phi that grows by a constant is unknown or a recurrence with that step. -/
structure Expected (F : Forest) (v : Value) (e : Expr) : Prop where
  constant : ∀ n, IsConstant F.function n v → e = .const n
  counter : ∀ phi edges comment, v = .result phi → F.function.operation? phi = some (.phi edges comment) →
    (∃ number w, e = .unknown number w) ∨ ∃ k, counting? F phi edges = some k ∧ OfCounting F.function k e

/-- All evolutions that are remembered are as expected. -/
structure Steady (F : Forest) (c : Context) : Prop where
  forest : c.forest = F
  memo : ∀ v e, c.memo.lookup v = some e → Expected F v e

theorem ofMemory_steady : OfMemory (Steady F) :=
  fun forest memo steady => ⟨forest.trans steady.forest, fun v e known => steady.memo v e (memo ▸ known)⟩

theorem Steady.remember {e : Expr} (steady : Steady F c) (expected : Expected F v e) :
    Steady F { c with memo := (v, e) :: c.memo } := by
  refine ⟨steady.forest, fun w e' known => ?_⟩
  rw [List.lookup_cons] at known
  split at known
  · rename_i same
    cases known
    exact beq_iff_eq.mp same ▸ expected
  · exact steady.memo w e' known

theorem isConstant_cases {f : Function} (constant : isConstant f n v = true) :
    f.constant? v = some n ∨ ∃ p x, v = .result p ∧ f.operation? p = some (.changeType x) ∧ f.constant? x = some n := by
  unfold isConstant at constant
  split at constant
  · rename_i x definition
    obtain ⟨p, isResult, here⟩ := Function.exists_place definition
    exact .inr ⟨p, x, isResult, here, beq_iff_eq.mp constant⟩
  · exact .inl (beq_iff_eq.mp constant)

theorem isConst_of_constant? {f : Function} (constant : f.constant? v = some n) : ∃ i, v = .const i := by
  cases v with
  | const i => exact ⟨i, rfl⟩
  | _ => cases constant

theorem isConstant_unique {f : Function} {m : Int64} (constant : isConstant f n v = true)
    (again : isConstant f m v = true) : m = n := by
  unfold isConstant at constant again
  cases definition : f.definition? v with
  | none => simp_all
  | some operation => cases operation <;> simp_all

theorem expected_const (constant : isConstant F.function n v = true) : Expected F v (.const n) := by
  refine ⟨fun m again => congrArg Expr.const (isConstant_unique again.1 constant), ?_⟩
  rintro phi edges comment rfl isPhi
  rcases isConstant_cases constant with direct | ⟨p, x, same, here, _⟩
  · cases direct
  · cases same
    rw [isPhi] at here
    cases here

/-! ### Evolutions of constants -/

/-- The context remembers what the other one does, and the expression of a value. -/
structure Remembers (v : Value) (e : Expr) (c c' : Context) : Prop where
  forest : c'.forest = c.forest
  memo : ∀ w e', c'.memo.lookup w = some e' → (w = v ∧ e' = e) ∨ c.memo.lookup w = some e'

theorem Steady.of_remembers {e : Expr} {c' : Context} (steady : Steady F c) (remembers : Remembers v e c c')
    (expected : Expected F v e) : Steady F c' := by
  refine ⟨remembers.forest.trans steady.forest, fun w e' known => ?_⟩
  rcases remembers.memo w e' known with ⟨rfl, rfl⟩ | before
  · exact expected
  · exact steady.memo w e' before

theorem evolutionWithin_of_lookup {e : Expr} (known : c.memo.lookup v = some e) (depth : Nat) :
    evolutionWithin (depth + 1) v c = (e, c) := by
  rw [evolutionWithin_succ, known]

theorem evolutionWithin_of_fresh (fresh : c.memo.lookup v = none) (depth : Nat) :
    evolutionWithin (depth + 1) v c =
      ((findEvolution (evolutionWithin depth) v (c.pending v)).1,
        { (findEvolution (evolutionWithin depth) v (c.pending v)).2 with
          memo := (v, (findEvolution (evolutionWithin depth) v (c.pending v)).1) ::
            (findEvolution (evolutionWithin depth) v (c.pending v)).2.memo }) := by
  rw [evolutionWithin_succ, fresh]
  simp only [Query.unknown_memo, Context.pending]

/-- The evolution of a value without a definition asks for no other. -/
theorem findEvolution_basic (self : Value → Query Expr) (basic : c.function.definition? v = none) :
    (findEvolution self v c).2.forest = c.forest ∧ (findEvolution self v c).2.memo = c.memo := by
  have quiet : ∀ q : Query Expr, Quiet q → (q c).2.forest = c.forest ∧ (q c).2.memo = c.memo :=
    fun q quiet => ⟨quiet.forest c, quiet.memo c⟩
  rw [findEvolution, get_bind]
  refine quiet _ ?_
  split
  · split
    · split
      · exact Query.quiet_const _
      · exact Query.quiet_unknown _
    · rename_i p _
      rw [show c.forest.function.operation? p = none from basic]
      exact Query.quiet_unknown _
    · exact Query.quiet_unknown _
  · exact Query.quiet_unknown _

theorem findEvolution_constant (self : Value → Query Expr) (constant : c.function.constant? v = some n)
    (integer : c.function.isInteger v = true) : (findEvolution self v c).1 = .const n := by
  obtain ⟨i, rfl⟩ := isConst_of_constant? constant
  rw [findEvolution, get_bind]
  simp only [show c.forest.function.isInteger (.const i) = true from integer, if_true,
    show c.forest.function.constant? (.const i) = some n from constant]
  exact Query.const_fst n c

/-- A constant is found to be one, whatever else is known. -/
theorem evolutionWithin_constant (constant : c.function.constant? v = some n) (integer : c.function.isInteger v = true)
    (steady : ∀ e, c.memo.lookup v = some e → e = .const n) (depth : Nat) :
    (evolutionWithin (depth + 1) v c).1 = .const n ∧ Remembers v (.const n) c (evolutionWithin (depth + 1) v c).2 := by
  cases known : c.memo.lookup v with
  | some e =>
    rw [evolutionWithin_of_lookup known]
    exact ⟨steady e known, rfl, fun w e' before => .inr before⟩
  | none =>
    rw [evolutionWithin_of_fresh known]
    rw [← c.pending_function v] at constant integer
    have basic : (c.pending v).function.definition? v = none := by
      obtain ⟨i, rfl⟩ := isConst_of_constant? constant
      rfl
    obtain ⟨forest, memo⟩ := findEvolution_basic (evolutionWithin depth) basic
    rw [findEvolution_constant _ constant integer]
    refine ⟨rfl, forest.trans (c.pending_forest v), fun w e' later => ?_⟩
    dsimp only at later
    rw [memo, Context.pending, List.lookup_cons] at later
    split at later
    · rename_i same
      cases later
      exact .inl ⟨beq_iff_eq.mp same, rfl⟩
    · rename_i other
      rw [List.lookup_cons, other] at later
      exact .inr later

/-- So is one under another type. It counts as unknown while it is being found, but nobody asks for it then. -/
theorem evolutionWithin_changeType (typed : F.function.integersTyped = true) (steady : Steady F c) {p : Place} {x : Value}
    (here : F.function.operation? p = some (.changeType x)) (constant : F.function.constant? x = some n)
    (integer : F.function.isInteger (.result p) = true) {depth : Nat} (enough : unanswered c < depth + 1) :
    (evolutionWithin (depth + 1) (.result p) c).1 = .const n ∧
      Steady F (evolutionWithin (depth + 1) (.result p) c).2 := by
  have isConstantP : isConstant F.function n (.result p) = true := by
    simp [isConstant, Function.definition?, Value.place?, here, constant]
  have isConstantX : isConstant F.function n x = true := by
    obtain ⟨i, rfl⟩ := isConst_of_constant? constant
    simp [isConstant, Function.definition?, Value.place?, constant]
  have integerX : F.function.isInteger x = true :=
    Function.isInteger_operand typed here integer (by simp [Function.integerOperands])
  have function : c.function = F.function := congrArg Forest.function steady.forest
  cases known : c.memo.lookup (.result p) with
  | some e =>
    rw [evolutionWithin_of_lookup known]
    exact ⟨(steady.memo _ e known).constant n ⟨isConstantP, integer⟩, steady⟩
  | none =>
    have less := unanswered_pending_lt (function ▸ Function.mem_places_of_operation? here) known
    obtain ⟨depth, rfl⟩ : ∃ d, depth = d + 1 := ⟨depth - 1, by omega⟩
    have function' : (c.pending (.result p)).function = F.function := (c.pending_function _).trans function
    have forest' : (c.pending (.result p)).forest = F := (c.pending_forest _).trans steady.forest
    have finds : findEvolution (evolutionWithin (depth + 1)) (.result p) (c.pending (.result p)) =
        evolutionWithin (depth + 1) x (c.pending (.result p)) := by
      rw [findEvolution, get_bind, forest']
      simp only [integer, here, evolutionOfOperation, integerX, if_true]
    have before : ∀ e, (c.pending (.result p)).memo.lookup x = some e → e = .const n := by
      intro e known
      obtain ⟨i, rfl⟩ := isConst_of_constant? constant
      exact (steady.memo _ e known).constant n ⟨isConstantX, integerX⟩
    obtain ⟨value, remembers⟩ := evolutionWithin_constant (function' ▸ constant) (function' ▸ integerX) before depth
    rw [evolutionWithin_of_fresh known, finds, value]
    refine ⟨rfl, remembers.forest.trans forest', fun w e later => ?_⟩
    rw [List.lookup_cons] at later
    split at later
    · rename_i same
      cases later
      exact beq_iff_eq.mp same ▸ expected_const isConstantP
    · rename_i other
      rcases remembers.memo w e later with ⟨rfl, rfl⟩ | pending
      · exact expected_const isConstantX
      · rw [Context.pending, List.lookup_cons, other] at pending
        exact steady.memo w e pending

/-! ### All evolutions -/

/-- A phi that grows by a constant. Its start is asked for after its step. -/
theorem evolutionOfCounting_of_const {self : Value → Query Expr} {phi : Place} {k : Counting}
    (step : (self k.step c).1 = .const n) (notZero : n ≠ 0) (up : k.down = false) :
    (evolutionOfCounting self phi k c).1 = .recur k.loop (self k.start (self k.step c).2).1 (.const n) := by
  obtain ⟨c', answer⟩ : ∃ c', self k.step c = (.const n, c') := ⟨_, Prod.ext step rfl⟩
  have recurs : evolutionOfCounting self phi k c =
      Query.recur k.loop (self k.start c').1 (.const n) true (self k.start c').2 := by
    change (do
      let step ← if k.down then Query.negate (self k.step c).1 else pure (self k.step c).1
      if ← Query.isInvariant k.loop step then
        let start ← self k.start
        Query.recur k.loop start step true
      else Query.unknown (.result phi)) (self k.step c).2 = _
    rw [answer, up]
    rfl
  rw [recurs, answer]
  rcases Query.recur_cases k.loop (self k.start c').1 (.const n) true (self k.start c').2 with ⟨zero, _⟩ | ⟨_, made⟩
  · exact absurd (Option.some.inj (beq_iff_eq.mp zero)) notZero
  · exact made

theorem Query.exists_unknown (v : Value) (c : Context) : ∃ number, (Query.unknown v c).1 = .unknown number v := by
  unfold Query.unknown
  split <;> exact ⟨_, rfl⟩

/-- What is found for a phi, if constants are found to be constants wherever the invariant holds. -/
theorem findEvolution_phi {self : Value → Query Expr} (forest : c.forest = F) {I : Context → Prop}
    (finds : ∀ w, Keeps I (self w)) (constants : ∀ c, I c → ∀ w n, IsConstant F.function n w → (self w c).1 = .const n)
    (holds : I c) {phi : Place} {edges : List Value} {comment : String}
    (isPhi : F.function.operation? phi = some (.phi edges comment)) :
    (∃ number w, (findEvolution self (.result phi) c).1 = .unknown number w) ∨
      ∃ k, counting? F phi edges = some k ∧ OfCounting F.function k (findEvolution self (.result phi) c).1 := by
  rw [findEvolution, get_bind, forest]
  cases integer : F.function.isInteger (.result phi) with
  | false => exact .inl ⟨_, _, (Query.exists_unknown (.result phi) c).choose_spec⟩
  | true =>
    simp only [if_true, isPhi, evolutionOfOperation]
    cases counting? F phi edges with
    | none => exact .inl ⟨_, _, (Query.exists_unknown (.result phi) c).choose_spec⟩
    | some k =>
      refine .inr ⟨k, rfl, fun n isConstant notZero up => ?_⟩
      refine ⟨_, evolutionOfCounting_of_const (constants c holds k.step n isConstant) notZero up, fun m isStart => ?_⟩
      exact constants _ (finds k.step c holds) k.start m isStart

theorem keeps_findEvolution {I : Context → Prop} (memory : OfMemory I) {self : Value → Query Expr}
    (finds : ∀ v, Keeps I (self v)) {p : Place} {operation : Operation}
    (here : c.function.operation? p = some operation) (holds : I c) : I (findEvolution self (.result p) c).2 := by
  rw [findEvolution, get_bind]
  simp only [show c.forest.function.operation? p = some operation from here]
  split
  · exact keeps_evolutionOfOperation memory finds _ p operation c holds
  · exact (Query.quiet_unknown _).keeps memory c holds

section

variable {v : Value} {depth : Nat} (steady : Steady F c)
include steady

theorem Steady.function : c.function = F.function :=
  congrArg Forest.function steady.forest

theorem steady_of_constant (typed : F.function.integersTyped = true) (isConstant : IsConstant F.function n v)
    (enough : unanswered c < depth + 1) :
    Steady F (evolutionWithin (depth + 1) v c).2 ∧ Expected F v (evolutionWithin (depth + 1) v c).1 := by
  have function := steady.function
  have expected : Expected F v (.const n) := expected_const isConstant.1
  rcases isConstant_cases isConstant.1 with direct | ⟨p, x, rfl, here, constant⟩
  · obtain ⟨value, remembers⟩ := evolutionWithin_constant (function ▸ direct) (function ▸ isConstant.2)
      (fun e known => (steady.memo v e known).constant n isConstant) depth
    rw [value]
    exact ⟨steady.of_remembers remembers expected, expected⟩
  · obtain ⟨value, steady'⟩ := evolutionWithin_changeType typed steady here constant isConstant.2 enough
    rw [value]
    exact ⟨steady', expected⟩

variable (noConstant : ¬ ∃ n, IsConstant F.function n v)
include noConstant

theorem Steady.pending : Steady F (c.pending v) := by
  obtain ⟨number, unknown⟩ := Query.exists_unknown v c
  have expected : Expected F v (Query.unknown v c).1 :=
    ⟨fun n isConstant => absurd ⟨n, isConstant⟩ noConstant,
      fun _ _ _ _ _ => .inl ⟨number, v, unknown⟩⟩
  exact ⟨(c.pending_forest v).trans steady.forest, (steady.remember expected).memo⟩

theorem steady_of_basic (known : c.memo.lookup v = none) (basic : F.function.definition? v = none) :
    Steady F (evolutionWithin (depth + 1) v c).2 ∧ Expected F v (evolutionWithin (depth + 1) v c).1 := by
  have here : (c.pending v).function.definition? v = none := by
    rw [c.pending_function, steady.function, basic]
  obtain ⟨forest, memo⟩ := findEvolution_basic (evolutionWithin depth) here
  have expected : Expected F v (findEvolution (evolutionWithin depth) v (c.pending v)).1 := by
    refine ⟨fun n isConstant => absurd ⟨n, isConstant⟩ noConstant, ?_⟩
    rintro phi edges comment rfl isPhi
    exact absurd (isPhi.symm.trans basic) (by simp)
  rw [evolutionWithin_of_fresh known]
  exact ⟨(ofMemory_steady forest memo (steady.pending noConstant)).remember expected, expected⟩

/-- The operands of an instruction are found as expected, with one value less to answer and one step less. -/
theorem steady_of_operation (known : c.memo.lookup v = none) {operation : Operation}
    (defined : F.function.definition? v = some operation) (enough : unanswered c < depth + 1)
    (operands : ∀ {c : Context} (w : Value), Steady F c → unanswered c < depth →
      Steady F (evolutionWithin depth w c).2 ∧ Expected F w (evolutionWithin depth w c).1) :
    Steady F (evolutionWithin (depth + 1) v c).2 ∧ Expected F v (evolutionWithin (depth + 1) v c).1 := by
  obtain ⟨p, rfl, here⟩ := Function.exists_place defined
  have function := steady.function
  have pending := steady.pending noConstant
  have less := unanswered_pending_lt (function ▸ Function.mem_places_of_operation? here) known
  have memory : OfMemory fun c => Steady F c ∧ unanswered c < depth := by
    intro c c' forest memo holds
    refine ⟨ofMemory_steady forest memo holds.1, ?_⟩
    rw [unanswered, Context.function, forest, memo]
    exact holds.2
  have finds : ∀ w, Keeps (fun c => Steady F c ∧ unanswered c < depth) (evolutionWithin depth w) := by
    intro w c holds
    exact ⟨(operands w holds.1 holds.2).1, (unanswered_le (grows_evolutionWithin depth w c)).trans_lt holds.2⟩
  have holds : Steady F (c.pending (.result p)) ∧ unanswered (c.pending (.result p)) < depth := ⟨pending, by omega⟩
  obtain ⟨found, _⟩ := keeps_findEvolution memory finds ((c.pending_function _).trans function ▸ here) holds
  have expected : Expected F (.result p)
      (findEvolution (evolutionWithin depth) (.result p) (c.pending (.result p))).1 := by
    refine ⟨fun n isConstant => absurd ⟨n, isConstant⟩ noConstant, ?_⟩
    rintro phi edges comment same isPhi
    cases same
    refine findEvolution_phi pending.forest finds (fun c holds w n isConstant => ?_) holds isPhi
    exact (operands w holds.1 holds.2).2.constant n isConstant
  rw [evolutionWithin_of_fresh known]
  exact ⟨found.remember expected, expected⟩

end

/-- Within a limit that is above the number of instructions that are left, evolutions are as expected. -/
theorem steady_evolutionWithin (typed : F.function.integersTyped = true) (depth : Nat) (v : Value) (steady : Steady F c)
    (enough : unanswered c < depth) :
    Steady F (evolutionWithin depth v c).2 ∧ Expected F v (evolutionWithin depth v c).1 := by
  induction depth generalizing v c with
  | zero => omega
  | succ depth ih =>
    by_cases constant : ∃ n, IsConstant F.function n v
    · obtain ⟨n, isConstant⟩ := constant
      exact steady_of_constant steady typed isConstant enough
    · cases known : c.memo.lookup v with
      | some e =>
        rw [evolutionWithin_of_lookup known]
        exact ⟨steady, steady.memo v e known⟩
      | none =>
        cases defined : F.function.definition? v with
        | none => exact steady_of_basic steady constant known defined
        | some operation => exact steady_of_operation steady constant known defined enough fun w => ih w

theorem Query.keeps_steady_of_typed (typed : F.function.integersTyped = true) (v : Value) :
    Keeps (Steady F) (Query.evolution v) := by
  intro c steady
  rw [evolution_eq]
  refine (steady_evolutionWithin typed _ v steady ?_).1
  calc unanswered c ≤ c.function.places.length := List.length_filter_le _ _
    _ < c.function.valueCount + 1 := by
      unfold Function.valueCount
      omega

theorem Query.keeps_steady (wf : F.function.WellFormed) (v : Value) : Keeps (Steady F) (Query.evolution v) :=
  Query.keeps_steady_of_typed wf.integersTyped v

end LoopConflict.Evolution
