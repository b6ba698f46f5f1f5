import LoopConflict.Loop.Forest
import LoopConflict.Proofs.Program.Availability

/-!
Runs of a function. A state says where control is, which words the values have and, for each loop, how
often its back edges were taken since it was last entered. Integer arithmetic either wraps around, with
comparisons and branches that may go either way, or is exact, with branches that follow comparisons; all
other instructions have any result (`Step`). Every exact run is one of those that wrap around
(`Reached.modular`). A run can be computed if the other instructions have the result zero (`run`), and some run
comes to each block that can be reached (`exists_reached`).
-/
namespace LoopConflict

open Loop (Forest LoopId)
open Program (Function Place Value Operation Comparison)

/-- The comparison holds of two integers. -/
def Program.Comparison.holds : Comparison → Int → Int → Bool
  | .lt, m, n => m < n
  | .le, m, n => m ≤ n
  | .gt, m, n => n < m
  | .ge, m, n => n ≤ m
  | .eq, m, n => m == n
  | .ne, m, n => m != n

/-- The place after this one. -/
def Program.Place.next (p : Place) : Place :=
  ⟨p.block, p.index + 1⟩

namespace Execution

/-- How integers are computed. -/
inductive Mode where
  /-- Results wrap around; comparisons have any result, and branches go either way. -/
  | modular
  /-- Results are exact, and branches follow comparisons. -/
  | exact
deriving DecidableEq, Repr

/-- The word stands for the result of a computation. -/
def Mode.Gives : Mode → Int64 → Int → Prop
  | .modular, w, n => w = Int64.ofInt n
  | .exact, w, n => w.toInt = n

structure State where
  place : Place
  /-- Booleans are words as well, zero for false. What is computed later has any word. -/
  values : Value → Int64
  /-- How often the back edges of a loop were taken since it was last entered. -/
  rounds : LoopId → Nat

namespace State

/-- The instruction here has a result, and control goes on. -/
def set (s : State) (w : Int64) : State :=
  { s with place := s.place.next, values := fun v => if v = .result s.place then w else s.values v }

/-- Control goes on without a result. -/
def skip (s : State) : State :=
  { s with place := s.place.next }

/-- What a value is after control came to a block as its `j`-th predecessor says: the phis of the block
    take the values of their edges, all at once. -/
def entered (s : State) (f : Function) (b j : Nat) (v : Value) : Int64 :=
  match v with
  | .result q =>
    match f.operation? q with
    | some (.phi edges _) => if q.block = b then ((edges[j]?).map s.values).getD 0 else s.values v
    | _ => s.values v
  | v => s.values v

/-- The number of back edges taken after control moved on to a block. -/
def counted (s : State) (F : Forest) (b : Nat) (l : LoopId) : Nat :=
  match F.loop? l with
  | some x => if x.header = b then if s.place.block ∈ x.latches then s.rounds l + 1 else 0 else s.rounds l
  | none => s.rounds l

/-- Control moves on to a block, as its `j`-th predecessor says. -/
def enter (s : State) (F : Forest) (b j : Nat) : State :=
  ⟨⟨b, 0⟩, s.entered F.function b j, s.counted F b⟩

end State

/-- The word may be the result of the operation at a place. Integer arithmetic and conversions between
    integers say what it is, and comparisons of integers do where arithmetic is exact. -/
def Computes (mode : Mode) (f : Function) (values : Value → Int64) (p : Place) (w : Int64) : Operation → Prop
  | .binary .add x y => f.isInteger (.result p) = true → mode.Gives w ((values x).toInt + (values y).toInt)
  | .binary .sub x y => f.isInteger (.result p) = true → mode.Gives w ((values x).toInt - (values y).toInt)
  | .binary .mul x y => f.isInteger (.result p) = true → mode.Gives w ((values x).toInt * (values y).toInt)
  | .binary .shl x y => f.isInteger (.result p) = true → 0 ≤ (values y).toInt →
      mode.Gives w ((values x).toInt <<< (values y).toInt.toNat)
  | .binary (.compare c) x y => mode = .exact → f.isInteger x = true → f.isInteger y = true →
      (w ≠ 0 ↔ c.holds (values x).toInt (values y).toInt = true)
  | .convert x => f.isInteger (.result p) = true → f.isInteger x = true → w = values x
  | .changeType x => f.isInteger (.result p) = true → f.isInteger x = true → w = values x
  | _ => True

/-- The condition that the block branches on, if it does, and where to if it is true and if it is not. -/
def branch? (f : Function) (b : Nat) : Option (Value × Nat × Nat) :=
  match f.succs b, (f.placesOf b).getLast?.bind f.operation? with
  | [yes, no], some (.branch condition) => some (condition, yes, no)
  | _, _ => none

/-- Control may go from the end of a block to the given one. -/
def Follows (mode : Mode) (f : Function) (s : State) (b : Nat) : Prop :=
  b ∈ f.succs s.place.block ∧ (mode = .exact → ∀ condition yes no,
    branch? f s.place.block = some (condition, yes, no) → b = if s.values condition = 0 then no else yes)

inductive Step (mode : Mode) (F : Forest) (s : State) : State → Prop where
  /-- A phi was computed when its block was entered. -/
  | skip : F.function.IsPhi s.place → Step mode F s s.skip
  | compute {operation : Operation} {w : Int64} :
    F.function.operation? s.place = some operation → ¬ F.function.IsPhi s.place →
      Computes mode F.function s.values s.place w operation → Step mode F s (s.set w)
  | move {b j : Nat} :
    F.function.operation? s.place = none → Follows mode F.function s b →
      (F.function.preds b)[j]? = some s.place.block → Step mode F s (s.enter F b j)

/-- Control starts at a root, with any words for all values but constants. -/
structure IsStart (F : Forest) (s : State) : Prop where
  root : s.place.block ∈ F.function.roots
  block : s.place.block ∈ F.function.blockIds
  first : s.place.index = 0
  constants : ∀ v n, F.function.constant? v = some n → s.values v = n
  rounds : ∀ l, s.rounds l = 0

/-- The state occurs in a run of the function. -/
inductive Reached (mode : Mode) (F : Forest) : State → Prop where
  | start {s : State} : IsStart F s → Reached mode F s
  | step {s s' : State} : Reached mode F s → Step mode F s s' → Reached mode F s'

/-! ### Staying in a loop -/

/-- A run leads from one state to the other and is in the loop all the way. -/
inductive Stays (mode : Mode) (F : Forest) (l : LoopId) (s : State) : State → Prop where
  | here : F.contains l s.place.block = true → Stays mode F l s s
  | step {s' s'' : State} : Stays mode F l s s' → Step mode F s' s'' → F.contains l s''.place.block = true →
    Stays mode F l s s''

theorem defines_result (F : Forest) (l : LoopId) (p : Place) : F.defines l (.result p) = F.contains l p.block :=
  rfl

/-- A step inside of a loop leaves alone what is not computed there. -/
theorem Step.values_eq {mode : Mode} {F : Forest} {l : LoopId} {s s' : State} (step : Step mode F s s')
    (inside : F.contains l s.place.block = true) (inside' : F.contains l s'.place.block = true) {v : Value}
    (outside : F.defines l v = false) : s'.values v = s.values v := by
  cases step with
  | skip _ => rfl
  | compute here noPhi computes =>
    have other : v ≠ .result s.place := by
      rintro rfl
      rw [defines_result, inside] at outside
      cases outside
    exact if_neg other
  | @move b j atEnd follows edge =>
    cases v with
    | result q =>
      have other : q.block ≠ b := by
        rintro rfl
        rw [defines_result] at outside
        exact absurd (outside.symm.trans inside') (by decide)
      change s.entered F.function b j (.result q) = _
      unfold State.entered
      dsimp only
      split
      · exact if_neg other
      · rfl
    | _ => rfl

/-- What is not computed in a loop keeps its word as long as control stays there. -/
theorem Stays.values_eq {mode : Mode} {F : Forest} {l : LoopId} {s s' : State} (stays : Stays mode F l s s') {v : Value}
    (outside : F.defines l v = false) : s'.values v = s.values v := by
  have both : F.contains l s'.place.block = true ∧ s'.values v = s.values v := by
    induction stays with
    | here inside => exact ⟨inside, rfl⟩
    | step _ step inside' ih =>
      obtain ⟨inside, same⟩ := ih
      exact ⟨inside', (step.values_eq inside inside' outside).trans same⟩
  exact both.2

/-! ### Exact runs -/

theorem Mode.Gives.modular {w : Int64} {n : Int} (exact : Mode.Gives .exact w n) : Mode.Gives .modular w n := by
  change w = Int64.ofInt n
  rw [← exact, Int64.ofInt_toInt]

theorem Computes.modular {f : Function} {values : Value → Int64} {p : Place} {w : Int64} {operation : Operation}
    (computes : Computes .exact f values p w operation) : Computes .modular f values p w operation := by
  unfold Computes at computes ⊢
  split at computes
  · exact fun integer => (computes integer).modular
  · exact fun integer => (computes integer).modular
  · exact fun integer => (computes integer).modular
  · exact fun integer shift => (computes integer shift).modular
  · exact fun different => by cases different
  · exact computes
  · exact computes
  · exact computes

/-- An exact run is one of those that wrap around. -/
theorem Reached.modular {F : Forest} {s : State} (reached : Reached .exact F s) : Reached .modular F s := by
  induction reached with
  | start start => exact .start start
  | step _ step ih =>
    refine .step ih ?_
    cases step with
    | skip phi => exact .skip phi
    | compute here noPhi computes => exact .compute here noPhi computes.modular
    | move atEnd follows edge => exact .move atEnd ⟨follows.1, fun different => by cases different⟩ edge

/-! ### Computed runs -/

/-- The word of an integer, unless it has to be exact and is not. -/
def Mode.word? (mode : Mode) (n : Int) : Option Int64 :=
  if mode = .modular ∨ (Int64.ofInt n).toInt = n then some (Int64.ofInt n) else none

/-- The result of an operation. -/
def evaluate? (mode : Mode) (values : Value → Int64) : Operation → Option Int64
  | .binary .add x y => mode.word? ((values x).toInt + (values y).toInt)
  | .binary .sub x y => mode.word? ((values x).toInt - (values y).toInt)
  | .binary .mul x y => mode.word? ((values x).toInt * (values y).toInt)
  | .binary .shl x y => mode.word? ((values x).toInt <<< (values y).toInt.toNat)
  | .binary (.compare c) x y => some (if c.holds (values x).toInt (values y).toInt then 1 else 0)
  | .convert x => some (values x)
  | .changeType x => some (values x)
  | _ => some 0

/-- Where control goes at the end of a block: by the condition that it branches on, or to its first
    successor. -/
def target? (f : Function) (s : State) : Option Nat :=
  match branch? f s.place.block with
  | some (condition, yes, no) => some (if s.values condition = 0 then no else yes)
  | none => (f.succs s.place.block).head?

/-- The next state; a run that cannot go on stays where it is. -/
def advance (mode : Mode) (F : Forest) (s : State) : State :=
  match F.function.operation? s.place with
  | some (.phi _ _) => s.skip
  | some operation =>
    match evaluate? mode s.values operation with
    | some w => s.set w
    | none => s
  | none =>
    match target? F.function s with
    | some b => s.enter F b ((F.function.preds b).idxOf s.place.block)
    | none => s

/-- Control is at the entry, and all values but constants are zero. -/
def initial (f : Function) : State :=
  ⟨⟨0, 0⟩, fun v => (f.constant? v).getD 0, fun _ => 0⟩

/-- The state after `n` steps. -/
def run (mode : Mode) (F : Forest) : Nat → State → State
  | 0, s => s
  | n + 1, s => run mode F n (advance mode F s)

theorem gives_of_word? {mode : Mode} {n : Int} {w : Int64} (found : mode.word? n = some w) : mode.Gives w n := by
  unfold Mode.word? at found
  split at found
  · rename_i either
    cases found
    cases mode with
    | modular => rfl
    | exact => exact either.resolve_left (by simp)
  · cases found

theorem computes_of_evaluate? {mode : Mode} {values : Value → Int64} {operation : Operation} {w : Int64}
    (found : evaluate? mode values operation = some w) (f : Function) (p : Place) :
    Computes mode f values p w operation := by
  unfold evaluate? at found
  unfold Computes
  split at found
  · exact fun _ => gives_of_word? found
  · exact fun _ => gives_of_word? found
  · exact fun _ => gives_of_word? found
  · exact fun _ _ => gives_of_word? found
  · intro _ _ _
    cases found
    split <;> simp_all
  · exact fun _ _ => (Option.some.inj found).symm
  · exact fun _ _ => (Option.some.inj found).symm
  · trivial

theorem follows_of_target? (mode : Mode) {f : Function} {s : State} {b : Nat} (found : target? f s = some b) :
    Follows mode f s b := by
  unfold target? at found
  split at found
  · rename_i condition yes no branches
    cases found
    refine ⟨?_, fun _ condition' yes' no' same => ?_⟩
    · unfold branch? at branches
      split at branches
      · rename_i succs _
        cases branches
        rw [succs]
        split <;> simp
      · cases branches
    · rw [branches] at same
      cases same
      rfl
  · rename_i plain
    refine ⟨List.mem_of_mem_head? found, fun _ condition yes no branches => ?_⟩
    rw [plain] at branches
    cases branches

theorem reached_advance {mode : Mode} {F : Forest} (wf : F.function.WellFormed) {s : State}
    (reached : Reached mode F s) : Reached mode F (advance mode F s) := by
  unfold advance
  split
  · rename_i edges comment here
    exact .step reached (.skip ⟨edges, comment, here⟩)
  · rename_i operation noPhi here
    split
    · rename_i w found
      exact .step reached (.compute here (Function.not_isPhi_of_operation? here noPhi) (computes_of_evaluate? found _ _))
    · exact reached
  · rename_i atEnd
    split
    · rename_i b found
      have follows := follows_of_target? mode found
      refine .step reached (.move atEnd follows ?_)
      have inside := List.idxOf_lt_length_of_mem (wf.connected.mem_succs_iff.mp follows.1)
      rw [List.getElem?_eq_getElem inside, List.getElem_idxOf inside]
    · exact reached

theorem reached_initial (mode : Mode) {F : Forest} (entry : 0 ∈ F.function.blockIds) :
    Reached mode F (initial F.function) := by
  refine .start ⟨List.mem_cons_self, entry, rfl, fun v n found => ?_, fun _ => rfl⟩
  simp [initial, found]

theorem reached_run {mode : Mode} {F : Forest} (wf : F.function.WellFormed) {s : State} (reached : Reached mode F s)
    (n : Nat) : Reached mode F (run mode F n s) := by
  induction n generalizing s with
  | zero => exact reached
  | succ n ih => exact ih (reached_advance wf reached)

/-! ### Blocks that are reached -/

/-- Every operation has a result if it may wrap around. -/
theorem exists_evaluate? (values : Value → Int64) (operation : Operation) :
    ∃ w, evaluate? .modular values operation = some w := by
  unfold evaluate?
  split <;> simp [Mode.word?]

/-- A run that is in a block comes to its end. -/
theorem Reached.exists_end {F : Forest} {s : State} (reached : Reached .modular F s) :
    ∃ s', Reached .modular F s' ∧ s'.place.block = s.place.block ∧ F.function.operation? s'.place = none := by
  -- The induction is on the number of instructions that are left.
  obtain ⟨left, bound⟩ : ∃ left, (F.function.placesOf s.place.block).length ≤ s.place.index + left :=
    ⟨(F.function.placesOf s.place.block).length, by omega⟩
  induction left generalizing s with
  | zero =>
    refine ⟨s, reached, rfl, ?_⟩
    cases here : F.function.operation? s.place with
    | none => rfl
    | some operation =>
      obtain ⟨instruction, found, _⟩ := Function.operation?_eq_some_iff.mp here
      obtain ⟨block, atBlock, atIndex⟩ := Option.bind_eq_some_iff.mp found
      have inside := (List.getElem?_eq_some_iff.mp atIndex).1
      simp only [Function.placesOf, atBlock, Option.map_some, Option.getD_some, List.length_map, List.length_range] at bound
      omega
  | succ left ih =>
    cases here : F.function.operation? s.place with
    | none => exact ⟨s, reached, rfl, here⟩
    | some operation =>
      have goes : ∃ s', Step .modular F s s' ∧ s'.place = s.place.next := by
        by_cases isPhi : F.function.IsPhi s.place
        · exact ⟨s.skip, .skip isPhi, rfl⟩
        · obtain ⟨w, found⟩ := exists_evaluate? s.values operation
          exact ⟨s.set w, .compute here isPhi (computes_of_evaluate? found _ _), rfl⟩
      obtain ⟨s', step, next⟩ := goes
      have same : s'.place.block = s.place.block := by rw [next]; rfl
      obtain ⟨s'', reached'', block, atEnd⟩ := ih (.step reached step) (by
        rw [next]
        simp only [Place.next]
        omega)
      exact ⟨s'', reached'', block.trans same, atEnd⟩

/-- Some run comes to each block that can be reached. -/
theorem exists_reached {F : Forest} (wf : F.function.WellFormed) {b : Nat} (reachable : F.function.Reachable b) :
    ∃ s, Reached .modular F s ∧ s.place.block = b := by
  induction reachable with
  | @start b root inside =>
    refine ⟨⟨⟨b, 0⟩, fun v => (F.function.constant? v).getD 0, fun _ => 0⟩, .start ⟨root, inside, rfl, ?_, fun _ => rfl⟩, rfl⟩
    intro v n found
    simp [found]
  | @step a b _ edge inside ih =>
    obtain ⟨s, reached, rfl⟩ := ih
    obtain ⟨s', reached', block, atEnd⟩ := reached.exists_end
    rw [← block] at edge
    obtain ⟨j, pred⟩ := List.mem_iff_getElem?.mp (wf.connected.mem_succs_iff.mp edge)
    exact ⟨_, .step reached' (.move atEnd ⟨edge, fun different => by cases different⟩ pred), rfl⟩

end Execution

end LoopConflict
