import LoopConflict.Proofs.Evolution.Describes
import LoopConflict.Proofs.Evolution.FirstFailure

/-!
How often loops run. Where nothing wraps around, a loop that is tested in its header or its only latch runs no
longer than until the first failure of the test (`Decides.rounds_le`), and it is left after exactly as many back
edges if it cannot be left anywhere else (`Decides.leavesAfter`).
-/
namespace LoopConflict

open Loop (Forest LoopId NaturalLoop)
open Program (Function Value Place Operation Comparison)

namespace Program.Comparison

theorem holds_flip (c : Comparison) (m n : Int) : c.flip.holds m n = c.holds n m := by
  cases c <;> simp [flip, holds, bne, Bool.beq_comm]

theorem holds_negate (c : Comparison) (m n : Int) : c.negate.holds m n = !c.holds m n := by
  cases c <;> grind [negate, holds]

end Program.Comparison

namespace Evolution

open Execution (State Mode Reached Step Follows branch? available_at_end)

/-! ### Exit tests -/

/-- The test at the end of a block, if it is one that can be told. -/
def Query.exitTest? (l : LoopId) (b : Nat) : Query (Option ExitTest) := do
  match stayCondition? (← get).forest l b with
  | none => return none
  | some (c, x, y) =>
    let x ← Query.evolution x
    let y ← Query.evolution y
    match oriented? l c x y with
    | some (c, .const start, .const step, limit) => return some ⟨c, start, step, limit⟩
    | _ => return none

theorem exitIteration?_eq (l : LoopId) (b : Nat) (c : Context) :
    Query.exitIteration? l b c =
      ((Query.exitTest? l b c).1.bind ExitTest.failure?, (Query.exitTest? l b c).2) := by
  unfold Query.exitIteration? Query.exitTest?
  rw [get_bind, get_bind]
  cases stayCondition? c.forest l b with
  | none => rfl
  | some condition =>
    obtain ⟨cmp, x, y⟩ := condition
    simp only [bind, StateT.bind]
    rcases Query.evolution x c with ⟨e, c₁⟩
    dsimp only
    rcases Query.evolution y c₁ with ⟨e', c₂⟩
    dsimp only
    generalize oriented? l cmp e e' = test
    rcases test with _ | ⟨cmp, start, step, limit⟩
    · rfl
    · cases start <;> cases step <;> rfl

theorem Query.settles_exitTest? (l : LoopId) (b : Nat) : Settles (exitTest? l b) (exitTest? l b) := by
  refine settles_get fun c c' later => ?_
  rw [later.forest]
  cases stayCondition? c.forest l b with
  | none => exact settles_pure none
  | some condition =>
    refine (settles_evolution _).bind fun x => (settles_evolution _).bind fun y => ?_
    split <;> exact settles_pure _

/-- The word that is tested in an iteration. -/
def ExitTest.word (t : ExitTest) (k : Nat) : Int64 :=
  t.start + t.step * Int64.ofNat k

/-- In every exact run control stays in the loop at the end of the block exactly if the test of the word says
    so. -/
def Tests (F : Forest) (l : LoopId) (b : Nat) (t : ExitTest) : Prop :=
  ∀ s b', Reached .exact F s → s.place.block = b → F.function.operation? s.place = none →
    Follows .exact F.function s b' →
      F.contains l b' = t.comparison.holds (t.word (s.rounds l)).toInt t.limit.toInt

variable {F : Forest} {l : LoopId} {b : Nat}

/-- What is read off the branch at the end of a block. -/
theorem stayCondition?_cases {c : Comparison} {x y : Value} (found : stayCondition? F l b = some (c, x, y)) :
    ∃ p condition yes no cmp, p.block = b ∧ F.function.operation? p = some (.branch condition) ∧
      branch? F.function b = some (condition, yes, no) ∧ F.contains l no = !F.contains l yes ∧
      F.function.definition? condition = some (.binary (.compare cmp) x y) ∧
      c = if F.contains l yes then cmp else cmp.negate := by
  unfold stayCondition? at found
  split at found
  · rename_i yes no condition succs last
    split at found
    · cases found
    · rename_i differ
      split at found
      · rename_i cmp x y defined
        cases found
        obtain ⟨p, isLast, here⟩ := Option.bind_eq_some_iff.mp last
        obtain ⟨i, _, rfl⟩ := List.mem_map.mp (List.mem_of_getLast? isLast)
        refine ⟨⟨b, i⟩, condition, yes, no, cmp, rfl, here, by simp [branch?, succs, last], ?_, defined, rfl⟩
        exact Bool.eq_not.mpr fun same => differ same.symm
      · cases found
  · cases found

/-- Where control goes at the end of a tested block. -/
theorem contains_of_stayCondition? (lawful : F.Lawful) {c : Comparison} {x y : Value}
    (found : stayCondition? F l b = some (c, x, y)) (integerX : F.function.isInteger x = true)
    (integerY : F.function.isInteger y = true) {s : State} (reached : Reached .exact F s) (here : s.place.block = b)
    (atEnd : F.function.operation? s.place = none) {b' : Nat} (follows : Follows .exact F.function s b') :
    F.function.Available s.place x ∧ F.function.Available s.place y ∧
      F.contains l b' = c.holds (s.values x).toInt (s.values y).toInt := by
  have wf := lawful.function
  obtain ⟨p, condition, yes, no, cmp, inBlock, branches, branch, other, defined, rfl⟩ := stayCondition?_cases found
  obtain ⟨q, rfl⟩ : ∃ q, condition = .result q := by
    cases condition with
    | result q => exact ⟨q, rfl⟩
    | _ => cases defined
  change F.function.operation? q = _ at defined
  have noPhi := Function.not_isPhi_of_operation? defined (by simp)
  obtain ⟨precedes, _⟩ := wf.precedes_of_mem_operands branches
    (Function.not_isPhi_of_operation? branches (by simp)) List.mem_cons_self
  have dominates := (Function.available_of_precedes precedes).dominates
  have available := available_at_end defined (inBlock.trans here.symm ▸ dominates) atEnd
  have operand := fun v member => wf.available_operand (v := v) available (reached.reachable wf) defined noPhi member
  refine ⟨operand x (by simp [Operation.operands]), operand y (by simp [Operation.operands]), ?_⟩
  have computes := reached.computes wf defined noPhi available rfl integerX integerY
  rw [follows.2 rfl _ yes no (here ▸ branch)]
  by_cases zero : s.values (.result q) = 0
  · have fails : cmp.holds (s.values x).toInt (s.values y).toInt = false := by simpa [zero] using computes
    rw [if_pos zero, other]
    cases F.contains l yes <;> simp [Comparison.holds_negate, fails]
  · have holds := computes.mp zero
    rw [if_neg zero]
    cases F.contains l yes <;> simp [Comparison.holds_negate, holds]

theorem oriented?_cases {c c' : Comparison} {x y start step : Expr} {n : Int64}
    (found : oriented? l c x y = some (c', start, step, n)) :
    (x = .recur l start step ∧ y = .const n ∧ c' = c) ∨ (y = .recur l start step ∧ x = .const n ∧ c' = c.flip) := by
  have parts : ∀ {x y start step n}, against? l x y = some (start, step, n) → x = .recur l start step ∧ y = .const n := by
    intro x y start step n found
    unfold against? at found
    split at found
    · split at found
      · rename_i same
        cases found
        exact ⟨by rw [same], rfl⟩
      · cases found
    · cases found
  unfold oriented? at found
  split at found
  · rename_i p direct
    cases found
    obtain ⟨rfl, rfl⟩ := parts direct
    exact .inl ⟨rfl, rfl, rfl⟩
  · obtain ⟨⟨start, step, n⟩, turned, same⟩ := Option.map_eq_some_iff.mp found
    cases same
    obtain ⟨rfl, rfl⟩ := parts turned
    exact .inr ⟨rfl, rfl, rfl⟩

/-- Only integers have an evolution that is not unknown. -/
theorem Describes.isInteger {v : Value} {e : Expr} (describes : Describes F v e)
    (known : ∀ number, e ≠ .unknown number v) : F.function.isInteger v = true := by
  rcases describes.typed with integer | ⟨number, unknown⟩
  · exact integer
  · exact absurd unknown (known number)

theorem Query.answers_exitTest? (lawful : F.Lawful) (l : LoopId) (b : Nat) :
    Answers F (exitTest? l b) fun found => ∀ t, found = some t → Tests F l b t := by
  refine upholds_get fun c sound => ?_
  rw [sound.forest]
  cases stay : stayCondition? F l b with
  | none => exact upholds_pure (by simp)
  | some condition =>
    obtain ⟨cmp, x, y⟩ := condition
    refine (answers_evolution lawful x).bind fun e isX => (answers_evolution lawful y).bind fun e' isY => ?_
    split
    · rename_i cmp' start step limit oriented
      refine upholds_pure fun t same => ?_
      cases same
      intro s b' reached here atEnd follows
      rcases oriented?_cases oriented with ⟨rfl, rfl, rfl⟩ | ⟨rfl, rfl, rfl⟩
      · obtain ⟨availableX, availableY, contains⟩ := contains_of_stayCondition? lawful stay
          (isX.isInteger (by simp)) (isY.isInteger (by simp)) reached here atEnd follows
        rw [contains, ← isX.value reached.modular availableX, ← isY.value reached.modular availableY]
        rfl
      · obtain ⟨availableX, availableY, contains⟩ := contains_of_stayCondition? lawful stay
          (isX.isInteger (by simp)) (isY.isInteger (by simp)) reached here atEnd follows
        rw [Comparison.holds_flip, contains, ← isX.value reached.modular availableX,
          ← isY.value reached.modular availableY]
        rfl
    · exact upholds_pure (by simp)

/-! ### Trip counts -/

/-- The count comes from the first failure of the test at the given block. -/
structure CountedAt (F : Forest) (c : Context) (l : LoopId) (x : NaturalLoop) (b : Nat) (t : ExitTest)
    (count : TripCount) : Prop where
  loop : F.loop? l = some x
  candidate : b ∈ exitCandidates F x
  test : (Query.exitTest? l b c).1 = some t
  failure : t.failure? = some count.backedges
  atHeader : count.atHeader = (b == x.header && x.latch? ≠ some x.header)

theorem Query.tripCountFrom_ensures (l : LoopId) (x : NaturalLoop) (candidates : List Nat) :
    Ensures id (tripCountFrom l x candidates) fun found c => ∀ count, found = some count →
      ∃ b ∈ candidates, ∃ t, (exitTest? l b c).1 = some t ∧ t.failure? = some count.backedges ∧
        count.atHeader = (b == x.header && x.latch? ≠ some x.header) := by
  induction candidates with
  | nil => exact ensures_pure fun _ _ found => by cases found
  | cons b rest ih =>
    have exits : Ensures id (exitIteration? l b) fun exit c => (exitTest? l b c).1.bind ExitTest.failure? = exit := by
      intro c
      rw [exitIteration?_eq]
      obtain ⟨grown, again⟩ := settles_exitTest? l b c
      exact ⟨grown, fun c' later => congrArg (Option.bind · ExitTest.failure?) (again c' later).1⟩
    refine exits.bind fun exit => ?_
    cases exit with
    | some n =>
      refine ensures_pure fun c fails count found => ?_
      cases found
      obtain ⟨t, test, failure⟩ := Option.bind_eq_some_iff.mp fails
      exact ⟨b, by simp, t, test, failure, rfl⟩
    | none =>
      refine ih.mono fun found c later _ count isFound => ?_
      obtain ⟨b', member, rest⟩ := later count isFound
      exact ⟨b', by simp [member], rest⟩

/-- A count that is known comes from a test in the header or the latch. -/
theorem exists_countedAt {c : Context} (forest : c.forest = F) {count : TripCount}
    (found : (Query.tripCount l c).1 = some count) : ∃ x b t, CountedAt F (Query.tripCount l c).2 l x b t count := by
  simp only [Query.tripCount, get_bind, forest] at found ⊢
  cases loop : F.loop? l with
  | none =>
    rw [loop] at found
    cases found
  | some x =>
    rw [loop] at found
    obtain ⟨b, candidate, t, test, failure, atHeader⟩ :=
      (Query.tripCountFrom_ensures l x (exitCandidates F x) c).2 _ (.refl _) count found
    exact ⟨x, b, t, loop, candidate, test, failure, atHeader⟩

/-! ### Counted runs -/

/-- Whenever control leaves the loop, its back edges were taken `n` times. -/
def LeavesAfter (F : Forest) (l : LoopId) (n : Int64) : Prop :=
  ∀ s s', Reached .exact F s → Step .exact F s s' → F.contains l s.place.block = true →
    F.contains l s'.place.block = false → Int64.ofNat (s.rounds l) = n

/-- The test at a block that every iteration runs into fails first in iteration `n`, and nothing wraps around
    until then. -/
structure Decides (F : Forest) (l : LoopId) (x : NaturalLoop) (b : Nat) (t : ExitTest) (n : Int64) : Prop where
  loop : F.loop? l = some x
  candidate : b = x.header ∨ x.latch? = some b
  tests : Tests F l b t
  fits : t.Fits
  failure : t.failure? = some n
  exit : Word.Fits (t.tested n.toInt)

theorem CountedAt.decides {c : Context} {x : NaturalLoop} {t : ExitTest} {count : TripCount}
    (counted : CountedAt F c l x b t count) (lawful : F.Lawful) (sound : Sound F c) (fits : t.Fits)
    (exit : Word.Fits (t.tested count.backedges.toInt)) : Decides F l x b t count.backedges := by
  refine ⟨counted.loop, ?_, (Query.answers_exitTest? lawful l b c sound).2 t counted.test, fits, counted.failure, exit⟩
  have candidate := counted.candidate
  simp only [exitCandidates, List.mem_append, List.mem_filter, beq_iff_eq, Bool.and_eq_true] at candidate
  exact candidate.imp (·.2) (·.2.2.symm)

namespace Decides

variable {x : NaturalLoop} {t : ExitTest} {n : Int64} (decides : Decides F l x b t n)
include decides

theorem contains_iff {b' : Nat} : F.contains l b' = true ↔ b' ∈ x.blocks := by
  simp [Forest.contains, decides.loop, NaturalLoop.contains]

/-- Up to the first failure the tested word is exact. -/
theorem toInt_word {k : Nat} (within : (k : Int) ≤ n.toInt) : (t.word k).toInt = t.tested k := by
  have word : t.word k = Int64.ofInt (t.tested k) := by
    rw [ExitTest.word, ExitTest.tested, Int64.ofInt_add, Int64.ofInt_mul, Int64.ofInt_toInt, Int64.ofInt_toInt,
      Int64.ofInt_eq_ofNat]
  rw [word]
  refine Word.toInt_ofInt_of_fits ?_
  -- The value lies between the start and the one that fails.
  have first := Word.toInt_bounds t.start
  have last := decides.exit
  unfold Word.Fits ExitTest.tested at *
  rcases Int.le_total 0 t.step.toInt with up | down
  · have := Int.mul_le_mul_of_nonneg_left within up
    have := Int.mul_nonneg up (Int.natCast_nonneg k)
    omega
  · have := Int.mul_le_mul_of_nonpos_left down within
    have := Int.mul_nonpos_of_nonpos_of_nonneg down (Int.natCast_nonneg k)
    omega

variable {s : State} (reached : Reached .exact F s)
include reached

/-- Control stays in the loop as long as the test has not failed. -/
theorem mem_iff_lt (here : s.place.block = b) (atEnd : F.function.operation? s.place = none) {b' : Nat}
    (follows : Follows .exact F.function s b') (within : (s.rounds l : Int) ≤ n.toInt) :
    b' ∈ x.blocks ↔ (s.rounds l : Int) < n.toInt := by
  obtain ⟨_, fails, holds⟩ := ExitTest.failure?_spec decides.fits decides.failure
  rw [← decides.contains_iff, decides.tests s b' reached here atEnd follows, decides.toInt_word within]
  change t.stays (s.rounds l) = true ↔ _
  constructor
  · intro stays
    refine lt_of_le_of_ne within fun same => ?_
    rw [same, fails] at stays
    cases stays
  · exact holds _ (Int.natCast_nonneg _)

/-- The back edges of a loop are taken no more often than until the test fails, and less often when control
    has got past a test in the header. -/
theorem rounds_le (lawful : F.Lawful) (inside : s.place.block ∈ x.blocks) :
    (s.rounds l : Int) ≤ n.toInt ∧ (b = x.header → s.place.block ≠ x.header → (s.rounds l : Int) < n.toInt) := by
  have wf := lawful.function
  have natural := lawful.natural decides.loop
  obtain ⟨notNegative, _, _⟩ := ExitTest.failure?_spec decides.fits decides.failure
  induction reached with
  | start start =>
    have same := Function.eq_of_dominates_root start.root start.block (natural.dominates wf.connected inside)
    rw [start.rounds]
    exact ⟨notNegative, fun _ other => absurd same.symm other⟩
  | @step s s' reached step ih =>
    cases step with
    | skip _ => exact ih inside
    | compute _ _ _ => exact ih inside
    | @move b' j atEnd follows edge =>
      change b' ∈ x.blocks at inside
      by_cases header : b' = x.header
      · refine ⟨?_, fun _ other => absurd header other⟩
        by_cases isLatch : s.place.block ∈ x.latches
        · -- The test comes before the back edge, in this block or in the header.
          have rounds : (s.enter F b' j).rounds l = s.rounds l + 1 := by
            simp [State.enter, State.counted, decides.loop, header, isLatch]
          obtain ⟨within, past⟩ := ih (natural.latch_mem isLatch)
          have less : (s.rounds l : Int) < n.toInt := by
            by_cases here : s.place.block = b
            · exact (decides.mem_iff_lt reached here atEnd follows within).mp inside
            · rcases decides.candidate with atHeader | only
              · exact past atHeader fun same => here (same.trans atHeader.symm)
              · unfold NaturalLoop.latch? at only
                split at only
                · rename_i single
                  cases only
                  rw [single, List.mem_singleton] at isLatch
                  exact absurd isLatch here
                · cases only
          omega
        · have rounds : (s.enter F b' j).rounds l = 0 := by
            simp [State.enter, State.counted, decides.loop, header, isLatch]
          rw [rounds]
          exact notNegative
      · have rounds : (s.enter F b' j).rounds l = s.rounds l := by
          simp [State.enter, State.counted, decides.loop, Ne.symm header]
        have before := natural.mem_of_mem_preds inside header wf.connected (wf.connected.mem_succs_iff.mp follows.1)
        obtain ⟨within, past⟩ := ih before
        rw [rounds]
        refine ⟨within, fun atHeader _ => ?_⟩
        by_cases here : s.place.block = x.header
        · exact (decides.mem_iff_lt reached (here.trans atHeader.symm) atEnd follows within).mp inside
        · exact past atHeader here

omit reached in
/-- A loop that can be left at the tested block only is left when the test fails. -/
theorem leavesAfter (lawful : F.Lawful) (sole : x.exiting F.function = [b]) : LeavesAfter F l n := by
  intro s s' reached step inside outside
  have inLoop := decides.contains_iff.mp inside
  have leaves : ∀ b', F.contains l b' = false → b' ∈ F.function.succs s.place.block → s.place.block = b := by
    intro b' notInLoop edge
    refine List.mem_singleton.mp (sole ▸ List.mem_filter.mpr ⟨reached.mem_blockIds lawful.function, ?_⟩)
    have left : x.contains b' = false := by simpa [Forest.contains, decides.loop] using notInLoop
    simp only [Bool.and_eq_true, List.any_eq_true]
    exact ⟨decide_eq_true inLoop, b', edge, by simp [left]⟩
  cases step with
  | skip _ => exact absurd (inside.symm.trans outside) (by simp)
  | compute _ _ _ => exact absurd (inside.symm.trans outside) (by simp)
  | @move b' j atEnd follows edge =>
    have here := leaves b' outside follows.1
    obtain ⟨within, _⟩ := decides.rounds_le reached lawful inLoop
    have stays := decides.mem_iff_lt reached here atEnd follows within
    rw [← decides.contains_iff, show F.contains l b' = false from outside] at stays
    have last : (s.rounds l : Int) = n.toInt := by
      have : ¬ (s.rounds l : Int) < n.toInt := by simpa using stays
      omega
    rw [← Int64.ofInt_eq_ofNat, last, Int64.ofInt_toInt]

end Decides

end Evolution

end LoopConflict
