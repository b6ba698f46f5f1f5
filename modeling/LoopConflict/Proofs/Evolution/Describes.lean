import LoopConflict.Proofs.Evolution.Meaning
import LoopConflict.Proofs.Evolution.Memory
import LoopConflict.Proofs.Execution.Values
import LoopConflict.Proofs.Word

/-!
Evolutions describe values. In every run, wherever a value is available it is the word of its evolution,
with the words that the unknown values have then and the number of back edges that were taken since each
loop was entered. This holds whatever was asked of the context before (`evolution_describes`): what is
remembered describes its value at all times (`Sound`), also while an evolution is being found and the value
itself counts as unknown.
-/
namespace LoopConflict

open Loop (Forest LoopId NaturalLoop)
open Program (Function Value Place Operation)

/-- The words and the iteration numbers of a state. -/
def Execution.State.assignment (s : Execution.State) : Evolution.Assignment :=
  ⟨s.values, fun l => Int64.ofNat (s.rounds l)⟩

namespace Evolution

open Execution (State Mode Reached Computes Counts growth exists_counts run initial reached_run reached_initial)

variable {α β : Type} {F : Forest}

/-- Control cannot be at the place without having entered the loop. -/
def Entered (F : Forest) (p : Place) (l : LoopId) : Prop :=
  ∃ x, F.loop? l = some x ∧ F.function.dominates x.header p.block = true

/-- Wherever `v` is available the expression stands for the given word, and is made of loops that were
    entered and values that are available too. -/
def Denotes (F : Forest) (v : Value) (word : State → Int64) (e : Expr) : Prop :=
  ∀ s, Reached .modular F s → F.function.Available s.place v →
    Means s.assignment (Entered F s.place) (F.function.Available s.place) (word s) e

/-- A phi is its start plus as many steps as back edges were taken. The start is made of loops that were
    entered earlier. -/
structure CountsAt (F : Forest) (phi : Place) (l : LoopId) (start step : Expr) (s : State) : Prop where
  notZero : step.isZero = false
  before : ∃ p, F.function.dominates phi.block p.block = false ∧ start.Over (Entered F p) (F.function.Available p)
  /-- The least word has no negative, so it is no step of a phi that shrinks. -/
  value : step.value s.assignment ≠ Int64.minValue →
    (s.values (.result phi)).toInt = (start.value s.assignment).toInt + (step.value s.assignment).toInt * s.rounds l

/-- If the value is a phi and the expression is a recurrence over its loop, then the phi counts with it as long
    as nothing wraps around. -/
def CountsExactly (F : Forest) (v : Value) (e : Expr) : Prop :=
  ∀ {phi : Place} {l : LoopId} {x : NaturalLoop} {start step : Expr}, v = .result phi → F.function.IsPhi phi →
    e = .recur l start step → F.loop? l = some x → x.header = phi.block →
    ∀ {s : State}, Reached .exact F s → F.function.dominates phi.block s.place.block = true →
      CountsAt F phi l start step s

/-- The expression is the evolution of the value: it stands for it wherever it is available. Only integers
    are looked into. -/
structure Describes (F : Forest) (v : Value) (e : Expr) : Prop where
  denotes : Denotes F v (fun s => s.values v) e
  typed : F.function.isInteger v = true ∨ ∃ number, e = .unknown number v
  counts : CountsExactly F v e

theorem countsExactly_of_not_isPhi {p : Place} (noPhi : ¬ F.function.IsPhi p) (e : Expr) :
    CountsExactly F (.result p) e := by
  intro phi l x start step same isPhi
  cases same
  exact absurd isPhi noPhi

theorem Describes.value {v : Value} {e : Expr} (describes : Describes F v e) {s : State}
    (reached : Reached .modular F s) (available : F.function.Available s.place v) : e.value s.assignment = s.values v :=
  (describes.denotes s reached available).value

/-- The context is about the given loops, and what it remembers describes the values. -/
structure Sound (F : Forest) (c : Context) : Prop where
  forest : c.forest = F
  memo : ∀ v e, c.memo.lookup v = some e → Describes F v e

theorem ofMemory_sound : OfMemory (Sound F) :=
  fun forest memo sound => ⟨forest.trans sound.forest, fun v e known => sound.memo v e (memo ▸ known)⟩

/-- In a sound context the answer satisfies the condition, and the context stays sound. -/
abbrev Answers (F : Forest) (q : Query α) (P : α → Prop) : Prop :=
  Upholds (Sound F) q P

theorem Quiet.answers {q : Query α} (quiet : Quiet q) {P : α → Prop} (holds : ∀ c, P (q c).1) : Answers F q P :=
  fun c sound => ⟨quiet.keeps ofMemory_sound c sound, holds c⟩

namespace Query

theorem describes_unknown (number : Nat) (v : Value) : Describes F v (.unknown number v) :=
  ⟨fun _ _ available => ⟨rfl, available⟩, .inr ⟨number, rfl⟩, fun _ _ recurs => by cases recurs⟩

theorem answers_unknown (v : Value) : Answers F (unknown v) (Describes F v) := by
  refine (quiet_unknown v).answers fun c => ?_
  unfold unknown
  split <;> exact describes_unknown _ v

end Query

/-! ### Words -/

theorem ofInt_shiftLeft {n : Int64} (low : 0 ≤ n) (high : n < 63) (x : Int64) :
    Int64.ofInt (x.toInt <<< n.toInt.toNat) = x * ((1 : Int64) <<< n) := by
  have powers : ∀ k : Fin 63, (1 : Int64) <<< Int64.ofNat k = Int64.ofInt (2 ^ k.val) := by decide
  have low' : 0 ≤ n.toInt := by simpa using Int64.le_iff_toInt_le.mp low
  have high' : n.toInt < 63 := Int64.lt_iff_toInt_lt.mp high
  have power := powers ⟨n.toInt.toNat, by omega⟩
  have same : Int64.ofNat n.toInt.toNat = n := by
    rw [← Int64.toInt_inj, ← Int64.ofInt_eq_ofNat, Int.toNat_of_nonneg low', Int64.ofInt_toInt]
  rw [same] at power
  rw [Int.shiftLeft_eq, Int64.ofInt_mul, Int64.ofInt_toInt, power]

theorem ofInt_growth (c : Counting) (start step : Int64) (n : Nat) :
    Int64.ofInt (start.toInt + growth c step * n) = start + (if c.down then -step else step) * Int64.ofNat n := by
  have sign : Int64.ofInt (growth c step) = if c.down then -step else step := by
    unfold growth
    split <;> simp
  rw [Int64.ofInt_add, Int64.ofInt_mul, Int64.ofInt_toInt, sign, Int64.ofInt_eq_ofNat]

theorem growth_eq {c : Counting} {step : Int64} (small : (if c.down then -step else step) ≠ Int64.minValue) :
    growth c step = (if c.down then -step else step).toInt := by
  unfold growth
  split at small
  · rename_i down
    rw [if_pos down, if_pos down]
    have other : step.toInt ≠ -9223372036854775808 := by
      intro same
      obtain rfl : step = Int64.minValue := Int64.toInt_inj.mp same
      exact small (by decide)
    have bounds := Word.toInt_bounds step
    have fits : Word.Fits (-step.toInt) := by
      unfold Word.Fits
      omega
    rw [← Word.toInt_ofInt_of_fits fits, Int64.ofInt_neg, Int64.ofInt_toInt]
  · rename_i up
    rw [if_neg up, if_neg up]

/-! ### Evolutions -/

section

variable (lawful : F.Lawful)
include lawful

/-- What denotes an operand denotes it wherever the result is available. -/
theorem Describes.operand {x : Value} {e : Expr} (describes : Describes F x e) {p : Place} {operation : Operation}
    (here : F.function.operation? p = some operation) (noPhi : ¬ F.function.IsPhi p) (member : x ∈ operation.operands) :
    Denotes F (.result p) (fun s => s.values x) e := by
  intro s reached available
  exact describes.denotes s reached
    (lawful.function.available_operand available (reached.reachable lawful.function) here noPhi member)

variable {self : Value → Query Expr} (finds : ∀ v, Answers F (self v) (Describes F v))
include finds

omit finds in
/-- The recurrence that is made for a phi that counts. Its start has no recurrence over the same loop, since
    it is computed before the loop. -/
theorem countsExactly_recur {phi : Place} {edges : List Value} {comment : String}
    (isPhi : F.function.operation? phi = some (.phi edges comment))
    (integer : F.function.isInteger (.result phi) = true) {c : Counting} {x : NaturalLoop} {next : Value}
    (counts : Counts F phi edges c x next) {start step : Expr} (isStart : Describes F c.start start)
    (isStep : Denotes F (.result phi) (fun s => if c.down then -s.values c.step else s.values c.step) step)
    (context : Context) (noWrap : Bool) :
    CountsExactly F (.result phi) (Query.recur c.loop start step noWrap context).1 := by
  have wf := lawful.function
  intro phi' l x' start' step' same _ recurs loop header s reached dominates
  cases same
  obtain ⟨s₀, before, available, outside⟩ := counts.exists_entering lawful isPhi reached.modular dominates
  have uses := (isStart.denotes s₀ before available).uses
  rcases Query.recur_cases c.loop start step noWrap context with ⟨zero, made⟩ | ⟨notZero, made⟩
  · rw [← made, recurs] at uses
    obtain ⟨y, loop', entered⟩ := uses.1
    rw [loop] at loop'
    cases loop'
    rw [header, outside] at entered
    cases entered
  · rw [made] at recurs
    cases recurs
    refine ⟨notZero, ⟨s₀.place, outside, uses⟩, fun small => ?_⟩
    have available : F.function.Available s.place (.result phi) := Function.available_phi ⟨_, _, isPhi⟩ dominates
    have value := (isStep s reached.modular available).value
    have exact := reached.counting lawful isPhi integer counts dominates
    have before := (counts.availableBefore_start lawful isPhi).available dominates (reached.modular.reachable wf)
    rw [isStart.value reached.modular before, value]
    rw [value] at small
    exact exact.trans (by rw [growth_eq small])

theorem answers_evolutionOfCounting {phi : Place} {edges : List Value} {comment : String}
    (isPhi : F.function.operation? phi = some (.phi edges comment))
    (integer : F.function.isInteger (.result phi) = true) {c : Counting} (found : counting? F phi edges = some c) :
    Answers F (evolutionOfCounting self phi c) (Describes F (.result phi)) := by
  obtain ⟨x, next, counts⟩ := exists_counts found
  have wf := lawful.function
  -- Start and step are available wherever the phi is.
  have before : ∀ {v e}, F.function.AvailableBefore phi.block v → Describes F v e →
      Denotes F (.result phi) (fun s => s.values v) e := by
    intro v e before describes s reached available
    exact describes.denotes s reached (before.available available.dominates (reached.reachable wf))
  have recurs : ∀ step, Denotes F (.result phi) (fun s => if c.down then -s.values c.step else s.values c.step) step →
      Answers F (do
        if ← Query.isInvariant c.loop step then
          let start ← self c.start
          Query.recur c.loop start step true
        else Query.unknown (.result phi)) (Describes F (.result phi)) := by
    intro step isStep
    refine upholds_get fun _ _ => ?_
    split
    · refine (finds c.start).bind fun start isStart => (Query.quiet_recur _ _ _ _).answers fun context =>
        ⟨?_, .inl integer, countsExactly_recur lawful isPhi integer counts isStart isStep context true⟩
      intro s reached available
      have isStart := before (counts.availableBefore_start lawful isPhi) isStart s reached available
      have entered : Entered F s.place c.loop := ⟨x, counts.loop, counts.header ▸ available.dominates⟩
      refine (Query.means_recur context isStart (isStep s reached available) entered true).of_eq ?_
      have value : s.values (.result phi) = _ := reached.counting lawful isPhi integer counts available.dominates
      dsimp only
      rw [value, ofInt_growth]
      rfl
    · exact Query.answers_unknown _
  refine (finds c.step).bind fun step isStep => ?_
  have isStep := before (counts.availableBefore_step lawful isPhi) isStep
  dsimp only
  split
  · rename_i down
    refine ((Query.quiet_negate step).answers fun context => ?_).bind recurs
    intro s reached available
    dsimp only
    rw [if_pos down]
    exact Query.means_negate context (isStep s reached available)
  · rename_i up
    refine (upholds_pure ?_).bind recurs
    intro s reached available
    dsimp only
    rw [if_neg up]
    exact isStep s reached available

/-- Arithmetic on the evolutions of two operands. -/
theorem answers_binary {p : Place} {x y : Value} {operation : Operation}
    (here : F.function.operation? p = some operation) (noPhi : ¬ F.function.IsPhi p)
    (operands : operation.operands = [x, y]) (integer : F.function.isInteger (.result p) = true)
    (word : Int64 → Int64 → Int64) {combine : Expr → Expr → Query Expr}
    (quiet : ∀ e e', Quiet (combine e e'))
    (means : ∀ {a L V m n e e'} c, Means a L V m e → Means a L V n e' → Means a L V (word m n) (combine e e' c).1)
    (computes : ∀ s, Reached .modular F s → F.function.Available s.place (.result p) →
      s.values (.result p) = word (s.values x) (s.values y)) :
    Answers F (do
      let e ← self x
      let e' ← self y
      combine e e') (Describes F (.result p)) := by
  refine (finds x).bind fun e isX => (finds y).bind fun e' isY =>
    (quiet e e').answers fun c => ⟨?_, .inl integer, countsExactly_of_not_isPhi noPhi _⟩
  intro s reached available
  have first := isX.operand lawful here noPhi (by simp [operands]) s reached available
  have second := isY.operand lawful here noPhi (by simp [operands]) s reached available
  exact (means c first second).of_eq (computes s reached available).symm

/-- A conversion between integers changes nothing. -/
theorem answers_conversion {p : Place} {x : Value} {operation : Operation}
    (here : F.function.operation? p = some operation) (noPhi : ¬ F.function.IsPhi p)
    (operands : operation.operands = [x]) (integer : F.function.isInteger (.result p) = true)
    (computes : F.function.isInteger x = true → ∀ s, Reached .modular F s → F.function.Available s.place (.result p) →
      s.values (.result p) = s.values x) :
    Answers F (if F.function.isInteger x then self x else Query.unknown (.result p)) (Describes F (.result p)) := by
  split
  · rename_i integerX
    intro c sound
    obtain ⟨sound', describes⟩ := finds x c sound
    refine ⟨sound', fun s reached available => ?_, .inl integer, countsExactly_of_not_isPhi noPhi _⟩
    exact (describes.operand lawful here noPhi (by simp [operands]) s reached available).of_eq
      (computes integerX s reached available).symm
  · exact Query.answers_unknown _

theorem answers_evolutionOfOperation {p : Place} {operation : Operation}
    (here : F.function.operation? p = some operation) (integer : F.function.isInteger (.result p) = true) :
    Answers F (evolutionOfOperation self F p operation) (Describes F (.result p)) := by
  have wf := lawful.function
  unfold evolutionOfOperation
  dsimp only
  split
  · have noPhi := Function.not_isPhi_of_operation? here (by simp)
    refine answers_binary lawful finds here noPhi rfl integer (· + ·) (fun _ _ => Query.quiet_combine _ _)
      (fun c => Query.means_sum c) ?_
    intro s reached available
    have value : s.values (.result p) = _ := reached.computes wf here noPhi available integer
    rw [value, Int64.ofInt_add, Int64.ofInt_toInt, Int64.ofInt_toInt]
  · have noPhi := Function.not_isPhi_of_operation? here (by simp)
    refine answers_binary lawful finds here noPhi rfl integer (· - ·) Query.quiet_difference
      (fun c => Query.means_difference c) ?_
    intro s reached available
    have value : s.values (.result p) = _ := reached.computes wf here noPhi available integer
    rw [value, Int64.ofInt_sub, Int64.ofInt_toInt, Int64.ofInt_toInt]
  · have noPhi := Function.not_isPhi_of_operation? here (by simp)
    refine answers_binary lawful finds here noPhi rfl integer (· * ·) (fun _ _ => Query.quiet_combine _ _)
      (fun c => Query.means_product c) ?_
    intro s reached available
    have value : s.values (.result p) = _ := reached.computes wf here noPhi available integer
    rw [value, Int64.ofInt_mul, Int64.ofInt_toInt, Int64.ofInt_toInt]
  · rename_i x y
    have noPhi := Function.not_isPhi_of_operation? here (by simp)
    split
    · rename_i n constant
      split
      · rename_i range
        have power : Answers F (Query.const ((1 : Int64) <<< n)) fun b => ∀ a L V, Means a L V ((1 : Int64) <<< n) b :=
          (Query.quiet_const _).answers fun c a L V => Query.means_const c _
        refine (finds x).bind fun e isX => power.bind fun b isB =>
          (Query.quiet_combine _ _).answers fun c => ⟨?_, .inl integer, countsExactly_of_not_isPhi noPhi _⟩
        intro s reached available
        have first := isX.operand lawful here noPhi (by simp [Operation.operands]) s reached available
        refine (Query.means_product c first (isB _ _ _)).of_eq ?_
        have shift := reached.constant constant
        have notNegative : 0 ≤ (s.values y).toInt := by
          rw [shift]
          simpa using Int64.le_iff_toInt_le.mp range.1
        have value : s.values (.result p) = _ := reached.computes wf here noPhi available integer notNegative
        dsimp only
        rw [value, shift, ofInt_shiftLeft range.1 range.2]
      · exact Query.answers_unknown _
    · exact Query.answers_unknown _
  · have noPhi := Function.not_isPhi_of_operation? here (by simp)
    refine answers_conversion lawful finds here noPhi rfl integer fun integerX s reached available => ?_
    exact reached.computes wf here noPhi available integer integerX
  · have noPhi := Function.not_isPhi_of_operation? here (by simp)
    refine answers_conversion lawful finds here noPhi rfl integer fun integerX s reached available => ?_
    exact reached.computes wf here noPhi available integer integerX
  · split
    · rename_i c counting
      exact answers_evolutionOfCounting lawful finds here integer counting
    · exact Query.answers_unknown _
  · exact Query.answers_unknown _

theorem answers_findEvolution (v : Value) : Answers F (findEvolution self v) (Describes F v) := by
  refine upholds_get fun c sound => ?_
  rw [sound.forest]
  dsimp only
  split
  · rename_i integer
    split
    · split
      · rename_i n constant
        refine (Query.quiet_const n).answers fun c =>
          ⟨fun s reached _ => ?_, .inl integer, fun isResult _ _ => by cases isResult⟩
        exact (Query.means_const c n).of_eq (reached.constant constant).symm
      · exact Query.answers_unknown _
    · split
      · rename_i operation here
        exact answers_evolutionOfOperation lawful finds here integer
      · exact Query.answers_unknown _
    · exact Query.answers_unknown _
  · exact Query.answers_unknown _

end

theorem Sound.remember {c : Context} (sound : Sound F c) {v : Value} {e : Expr} (describes : Describes F v e) :
    Sound F { c with memo := (v, e) :: c.memo } := by
  refine ⟨sound.forest, fun w e' known => ?_⟩
  rw [List.lookup_cons] at known
  split at known
  · rename_i same
    cases known
    exact beq_iff_eq.mp same ▸ describes
  · exact sound.memo w e' known

theorem answers_evolutionWithin (lawful : F.Lawful) (depth : Nat) (v : Value) :
    Answers F (evolutionWithin depth v) (Describes F v) := by
  induction depth generalizing v with
  | zero => exact Query.answers_unknown v
  | succ depth ih =>
    intro c sound
    rw [evolutionWithin_succ]
    cases known : c.memo.lookup v with
    | some e => exact ⟨sound, sound.memo v e known⟩
    | none =>
      obtain ⟨seeded, isUnknown⟩ := Query.answers_unknown v c sound
      obtain ⟨sound', describes⟩ := answers_findEvolution lawful ih v _ (seeded.remember isUnknown)
      exact ⟨sound'.remember describes, describes⟩

theorem Query.answers_evolution (lawful : F.Lawful) (v : Value) : Answers F (Query.evolution v) (Describes F v) :=
  upholds_get fun _ _ => answers_evolutionWithin lawful _ v

/-! ### Whatever was asked before -/

theorem Query.keeps_evolution (lawful : F.Lawful) (v : Value) : Keeps (Sound F) (Query.evolution v) :=
  fun c sound => (Query.answers_evolution lawful v c sound).1

theorem sound_asked {f : Function} (wf : f.WellFormed) (questions : List Question) :
    Sound (Forest.ofFunction f) (Context.asked f questions) :=
  ofMemory_sound.asked (Query.keeps_evolution (Forest.lawful_ofFunction wf))
    ⟨rfl, fun v e known => by cases known⟩ questions

/-- Wherever a value is available it is the word of its evolution, which is made of values that are available
    as well and of loops that were entered. -/
theorem evolution_describes {f : Function} (wf : f.WellFormed) (questions : List Question) (v : Value) {s : State}
    (reached : Reached .modular (.ofFunction f) s) (available : f.Available s.place v) :
    (Query.evolution v (.asked f questions)).1.value s.assignment = s.values v ∧
      (Query.evolution v (.asked f questions)).1.Over (Entered (.ofFunction f) s.place) (f.Available s.place) := by
  have lawful := Forest.lawful_ofFunction wf
  obtain ⟨_, describes⟩ := Query.answers_evolution lawful v _ (sound_asked wf questions)
  obtain ⟨value, uses⟩ := describes.denotes s reached available
  exact ⟨value, uses⟩

/-- The inner loop adds its own counter to ten times the one of the outer loop. -/
def grid : Function where
  name := "grid"
  receiver := none
  types := []
  params := []
  free := []
  globals := []
  constants := [⟨.int 0, .basic .int⟩, ⟨.int 1, .basic .int⟩, ⟨.int 3, .basic .int⟩, ⟨.int 4, .basic .int⟩,
    ⟨.int 10, .basic .int⟩]
  blocks := [
    ⟨"entry", [], [1], [⟨.jump, none, 0⟩]⟩,
    ⟨"for.loop", [0, 4], [2, 5], [
      ⟨.phi [.const 0, .result ⟨4, 0⟩] "i", some ("t0", .basic .int), 0⟩,
      ⟨.binary (.compare .lt) (.result ⟨1, 0⟩) (.const 2), some ("t1", .basic .bool), 0⟩,
      ⟨.branch (.result ⟨1, 1⟩), none, 0⟩]⟩,
    ⟨"for.body", [1], [3], [⟨.jump, none, 0⟩]⟩,
    ⟨"for.loop", [2, 3], [3, 4], [
      ⟨.phi [.const 0, .result ⟨3, 3⟩] "j", some ("t2", .basic .int), 0⟩,
      ⟨.binary .mul (.result ⟨1, 0⟩) (.const 4), some ("t3", .basic .int), 0⟩,
      ⟨.binary .add (.result ⟨3, 1⟩) (.result ⟨3, 0⟩), some ("t4", .basic .int), 0⟩,
      ⟨.binary .add (.result ⟨3, 0⟩) (.const 1), some ("t5", .basic .int), 0⟩,
      ⟨.binary (.compare .lt) (.result ⟨3, 3⟩) (.const 3), some ("t6", .basic .bool), 0⟩,
      ⟨.branch (.result ⟨3, 4⟩), none, 0⟩]⟩,
    ⟨"for.done", [3], [1], [
      ⟨.binary .add (.result ⟨1, 0⟩) (.const 1), some ("t7", .basic .int), 0⟩,
      ⟨.jump, none, 0⟩]⟩,
    ⟨"for.done", [1], [], [⟨.leave [], none, 0⟩]⟩]
  recover := none

theorem grid_wellFormed : grid.WellFormed :=
  ⟨by decide +kernel, by decide +kernel, by decide +kernel, by decide +kernel, by decide +kernel⟩

theorem grid_described : ∃ s, Reached .modular (.ofFunction grid) s ∧ grid.Available s.place (.result ⟨3, 2⟩) ∧
    (Query.evolution (.result ⟨3, 2⟩) (.asked grid [.evolution (.result ⟨4, 0⟩), .tripCount 1])).1 =
      .recur 1 (.recur 0 (.const 0) (.const 10)) (.const 1) ∧
    s.values (.result ⟨3, 2⟩) = 12 ∧
    (Expr.recur 1 (.recur 0 (.const 0) (.const 10)) (.const 1)).value s.assignment = 12 := by
  have start : Reached .modular (.ofFunction grid) (initial grid) := reached_initial .modular (by decide +kernel)
  have reached := reached_run grid_wellFormed start 62
  have place : (run .modular (.ofFunction grid) 62 (initial grid)).place = ⟨3, 3⟩ := by decide +kernel
  have value : (run .modular (.ofFunction grid) 62 (initial grid)).values (.result ⟨3, 2⟩) = 12 := by decide +kernel
  have evolution : (Query.evolution (.result ⟨3, 2⟩) (.asked grid [.evolution (.result ⟨4, 0⟩), .tripCount 1])).1 =
      .recur 1 (.recur 0 (.const 0) (.const 10)) (.const 1) := by decide +kernel
  generalize run .modular (.ofFunction grid) 62 (initial grid) = s at reached place value
  have available : grid.Available s.place (.result ⟨3, 2⟩) := by
    rw [place]
    exact .inl ⟨rfl, .inl (by decide)⟩
  obtain ⟨described, _⟩ := evolution_describes grid_wellFormed [.evolution (.result ⟨4, 0⟩), .tripCount 1]
    (.result ⟨3, 2⟩) reached available
  rw [evolution] at described
  exact ⟨s, reached, available, evolution, value, described.trans value⟩

end Evolution

end LoopConflict
