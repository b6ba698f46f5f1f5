import LoopConflict.Proofs.Access.Conflict
import LoopConflict.Proofs.Access.Counters
import LoopConflict.Proofs.Evolution.Scope

/-!
The bounds of induction variables in runs. A variable that is recognized is its start plus as many constant
steps as back edges were taken, and the last bound is what it is when the loop's test fails, or the value
before that if the test is at the top. So the bounds hold in every iteration that gets past the test
(`inRange_of_reached`). They do not hold in a header before its test, as in `readAhead`.
-/
namespace LoopConflict.Access

open Loop (Forest LoopId NaturalLoop)
open Program (Function Place)
open Evolution
open Execution (State Reached run initial reached_run reached_initial)

variable {F : Forest} {c : Context} {iv : InductionVariable}

/-! ### Bounds -/

/-- The bound on the side that the variable goes to: its value where the loop's test fails, or the one before
    if the test is at the top. -/
def LastBound (c : Context) (iv : InductionVariable) (last : Int64) : Prop :=
  ∃ exit, (∀ a, iv.recurrence.value (finished c ((c.forest.loop? iv.loop).bind (·.parent)) a) = exit) ∧
    last = if (Query.tripCount iv.loop c).1.any (·.atHeader) then
      if 0 < iv.step.const?.getD 0 then exit - 1 else exit + 1 else exit

theorem bounds_ensures (iv : InductionVariable) : Ensures id (bounds iv) fun range c => ∃ last : Option Int64,
    (∀ w, last = some w → LastBound c iv w) ∧
      range = if iv.step.const?.getD 0 < 0 then (last, iv.start.const?) else (iv.start.const?, last) := by
  refine ensures_get fun c₀ => (atScope_ensures _ iv.recurrence).bind fun seen => ?_
  cases seen with
  | const exit =>
    have exits : ∀ {c : Context}, Context.Extends c₀ c →
        (∀ a, exit = iv.recurrence.value (finished c ((c₀.forest.loop? iv.loop).bind (·.parent)) a)) →
        ∀ a, iv.recurrence.value (finished c ((c.forest.loop? iv.loop).bind (·.parent)) a) = exit := by
      intro c later value a
      rw [later.forest]
      exact (value a).symm
    refine (Query.settles_tripCount iv.loop).ensures.bind fun count => ?_
    split
    · refine ensures_pure fun c known value later => ⟨_, fun w bound => ?_, rfl⟩
      cases bound
      refine ⟨exit, exits later value, ?_⟩
      rw [known]
      rfl
    · rename_i notTop
      refine ensures_pure fun c known value later => ⟨_, fun w bound => ?_, rfl⟩
      cases bound
      refine ⟨exit, exits later value, ?_⟩
      have below : (Query.tripCount iv.loop c).1.any (·.atHeader) = false := by
        rw [known]
        cases count with
        | none => rfl
        | some count =>
          obtain ⟨n, top⟩ := count
          cases top with
          | false => rfl
          | true => exact absurd rfl (notTop n)
      rw [below]
      rfl
  | _ =>
    refine ensures_pure fun c _ _ => ⟨none, fun w bound => ?_, rfl⟩
    cases bound

/-! ### Iterations -/

/-- Control is in the header, in the iteration whose test there leaves the loop. -/
def Leaving (F : Forest) (c : Context) (l : LoopId) (s : State) : Prop :=
  ∃ x n, F.loop? l = some x ∧ (Query.tripCount l c).1 = some ⟨n, true⟩ ∧ s.place.block = x.header ∧
    (s.rounds l : Int) = n.toInt

/-- Nothing that the bounds of the variable are computed from wraps around. The loops that its start has left
    are only ever left after as many back edges as were counted. -/
structure Unwrapped (F : Forest) (c : Context) (iv : InductionVariable) (s : State) : Prop where
  step : iv.step ≠ .const Int64.minValue
  test : ∀ x b t count, CountedAt F (Query.tripCount iv.loop c).2 iv.loop x b t count →
    t.Fits ∧ Word.Fits (t.tested count.backedges.toInt)
  exit : ∀ count, (Query.tripCount iv.loop c).1 = some count →
    Word.Fits ((iv.start.value s.assignment).toInt + (iv.step.value s.assignment).toInt * count.backedges.toInt)
  start : iv.start.Over (fun m => isAround F m ((F.loop? iv.loop).bind (·.parent)) = true ∨ CountHolds F c m)
    fun _ => True

/-- Control is in the loop of a variable that is known. -/
structure Iterates (F : Forest) (c : Context) (iv : InductionVariable) (x : NaturalLoop) (s : State) : Prop where
  sound : Sound F c
  known : iv.Known c
  heads : iv.Heads F iv.loop x
  reached : Reached .exact F s
  inside : s.place.block ∈ x.blocks

namespace Iterates

variable {x : NaturalLoop} {s : State} (iterates : Iterates F c iv x s)
include iterates

theorem describes : Describes F (.result iv.phi) iv.recurrence :=
  iterates.sound.memo _ _ iterates.known.evolution

theorem isPhi : F.function.IsPhi iv.phi := by
  have phi := iterates.known.phi
  rwa [Context.function, iterates.sound.forest] at phi

variable (lawful : F.Lawful)
include lawful

theorem dominates : F.function.dominates iv.phi.block s.place.block = true := by
  rw [iterates.heads.header]
  exact (lawful.natural iterates.heads.found).dominates lawful.function.connected iterates.inside

theorem available : F.function.Available s.place (.result iv.phi) :=
  Function.available_phi iterates.isPhi (iterates.dominates lawful)

theorem countsAt : CountsAt F iv.phi iv.loop iv.start iv.step s :=
  iterates.describes.counts rfl iterates.isPhi rfl iterates.heads.found iterates.heads.header.symm iterates.reached
    (iterates.dominates lawful)

/-- A loop that was entered before this one is around it or finished. -/
theorem not_contains {m : LoopId} {p : Place} (before : F.function.dominates iv.phi.block p.block = false)
    (entered : Entered F p m) (other : isAround F m x.parent = false) : F.contains m s.place.block = false := by
  have wf := lawful.function
  have natural := lawful.natural iterates.heads.found
  obtain ⟨y, found, above⟩ := entered
  -- The header of the other loop is outside, since it dominates what is before the loop.
  have outside : y.header ∉ x.blocks := by
    intro inLoop
    have dominates := Function.dominates_trans (natural.dominates wf.connected inLoop) above
    rw [← iterates.heads.header, before] at dominates
    cases dominates
  cases inside : F.contains m s.place.block with
  | false => rfl
  | true =>
    obtain ⟨y', found', inOther⟩ := Forest.contains_iff.mp inside
    obtain rfl := Option.some.inj (found.symm.trans found')
    have header := (natural.header_mem_or wf.connected (lawful.natural found) iterates.inside inOther).resolve_left outside
    have around := lawful.nested (Forest.contains_iff.mpr ⟨y, found, header⟩) (lawful.headed iterates.heads.found)
    have different : m ≠ iv.loop := by
      rintro rfl
      obtain rfl := Option.some.inj (found.symm.trans iterates.heads.found)
      exact outside (natural.header_mem wf.connected)
    obtain ⟨q, parent, aroundParent⟩ := Forest.exists_parent iterates.heads.found around different
    rw [parent] at other
    exact aroundParent.symm.trans other

/-- The start of the variable is what is seen of it from the loop around. -/
theorem start_seen (unwrapped : Unwrapped F c iv s) :
    iv.start.value (finished c x.parent s.assignment) = iv.start.value s.assignment := by
  obtain ⟨p, outside, before⟩ := (iterates.countsAt lawful).before
  obtain ⟨_, entered, _⟩ := (iterates.describes.denotes s iterates.reached.modular (iterates.available lawful)).uses
  have right := unwrapped.start
  rw [iterates.heads.found, Option.bind_some] at right
  refine Expr.value_congr (fun m part => ?_) (fun _ _ => ?_) ((entered.and before).and right)
  · obtain ⟨⟨here, earlier⟩, holds⟩ := part
    exact finished_rounds lawful iterates.sound iterates.reached here holds
      (iterates.not_contains lawful outside earlier)
  · rfl

theorem step_ne_zero {d : Int64} (step : iv.step = .const d) : d.toInt ≠ 0 := by
  intro zero
  have notZero := (iterates.countsAt lawful).notZero
  rw [step, Int64.toInt_inj.mp (zero.trans Int64.toInt_zero.symm)] at notZero
  cases notZero

variable (unwrapped : Unwrapped F c iv s) {d : Int64} (step : iv.step = .const d)
include unwrapped step

theorem value_eq : (s.values (.result iv.phi)).toInt =
    (iv.start.value s.assignment).toInt + d.toInt * s.rounds iv.loop := by
  have value := (iterates.countsAt lawful).value
  rw [step] at value
  exact value fun least => unwrapped.step (step.trans (congrArg Expr.const least))

/-- What the variable is once the loop is finished, as it is seen from the loop around. -/
theorem recurrence_seen : iv.recurrence.value (finished c x.parent s.assignment) =
    iv.start.value s.assignment +
      d * ((Query.tripCount iv.loop c).1.map (·.backedges)).getD (s.assignment.rounds iv.loop) := by
  have outside : isAround c.forest iv.loop x.parent = false := by
    rw [iterates.sound.forest]
    cases parent : x.parent with
    | none => exact isAround_none F iv.loop
    | some p => exact (isAround_some F iv.loop p).trans (lawful.containsLoop_parent iterates.heads.found parent)
  rw [InductionVariable.recurrence, Expr.value, iterates.start_seen lawful unwrapped, step, finished_of_tripCount outside]
  rfl

/-- Without a count the variable is seen as it is. -/
theorem exit_of_unknown (unknown : (Query.tripCount iv.loop c).1 = none) :
    iv.recurrence.value (finished c x.parent s.assignment) = s.values (.result iv.phi) := by
  rw [iterates.recurrence_seen lawful unwrapped step, unknown,
    ← iterates.describes.value iterates.reached.modular (iterates.available lawful), InductionVariable.recurrence,
    Expr.value, step]
  rfl

variable {count : TripCount} (found : (Query.tripCount iv.loop c).1 = some count)
include found

theorem exit_of_count : (iv.recurrence.value (finished c x.parent s.assignment)).toInt =
    (iv.start.value s.assignment).toInt + d.toInt * count.backedges.toInt := by
  have fits := unwrapped.exit count found
  rw [step, Expr.value] at fits
  rw [iterates.recurrence_seen lawful unwrapped step, found, ← Word.toInt_ofInt_of_fits fits]
  simp [Int64.ofInt_add, Int64.ofInt_mul]

omit step in
/-- Control has not taken more back edges than were counted, and less where it got past a test at the top. -/
theorem rounds_le : (s.rounds iv.loop : Int) ≤ count.backedges.toInt ∧
    (count.atHeader = true → Leaving F c iv.loop s ∨ (s.rounds iv.loop : Int) < count.backedges.toInt) := by
  obtain ⟨x', b, t, counted⟩ := exists_countedAt iterates.sound.forest found
  obtain rfl := Option.some.inj (iterates.heads.found.symm.trans counted.loop)
  obtain ⟨fits, exit⟩ := unwrapped.test _ _ _ _ counted
  have later := Query.keeps_tripCount (Query.keeps_evolution lawful) iv.loop c iterates.sound
  obtain ⟨within, past⟩ := (counted.decides lawful later fits exit).rounds_le iterates.reached lawful iterates.inside
  refine ⟨within, fun top => ?_⟩
  have atHeader := counted.atHeader
  simp only [top, Bool.true_eq, Bool.and_eq_true, beq_iff_eq] at atHeader
  by_cases header : s.place.block = x.header
  · rcases lt_or_eq_of_le within with earlier | last
    · exact .inr earlier
    · obtain ⟨n, _⟩ := count
      cases top
      exact .inl ⟨x, n, iterates.heads.found, found, header, last⟩
  · exact .inr (past atHeader.1 header)

omit found

/-- A bound that comes from the end of the loop holds on the side that the variable goes to. -/
theorem lastBound {last : Int64} (bound : LastBound c iv last) : Leaving F c iv.loop s ∨
    (0 < d.toInt → (s.values (.result iv.phi)).toInt ≤ last.toInt) ∧
      (d.toInt < 0 → last.toInt ≤ (s.values (.result iv.phi)).toInt) := by
  obtain ⟨exit, seen, rfl⟩ := bound
  have isExit := seen s.assignment
  rw [iterates.sound.forest, iterates.heads.found, Option.bind_some] at isExit
  have constant : iv.step.const?.getD 0 = d := by
    rw [step]
    rfl
  rw [constant]
  cases found : (Query.tripCount iv.loop c).1 with
  | none =>
    have same := isExit.symm.trans (iterates.exit_of_unknown lawful unwrapped step found)
    rw [same]
    exact .inr ⟨fun _ => le_refl _, fun _ => le_refl _⟩
  | some count =>
    have value := iterates.value_eq lawful unwrapped step
    have exits := iterates.exit_of_count lawful unwrapped step found
    obtain ⟨within, past⟩ := iterates.rounds_le lawful unwrapped found
    have range := Word.toInt_bounds (s.values (.result iv.phi))
    have exitRange := Word.toInt_bounds exit
    rw [isExit] at exits
    rw [Option.any_some]
    split
    · rename_i top
      refine (past top).imp_right fun earlier => ⟨fun up => ?_, fun down => ?_⟩
      · have further := Int.mul_le_mul_of_nonneg_left (Int.add_one_le_of_lt earlier) up.le
        rw [Int.mul_add, Int.mul_one] at further
        have positive : 0 < d := Int64.lt_iff_toInt_lt.mpr up
        rw [if_pos positive, Word.toInt_sub_one ⟨by omega, by omega⟩]
        omega
      · have further := Int.mul_le_mul_of_nonpos_left down.le (Int.add_one_le_of_lt earlier)
        rw [Int.mul_add, Int.mul_one] at further
        have negative : ¬ 0 < d := fun positive => (Int64.lt_iff_toInt_lt.mp positive).asymm down
        rw [if_neg negative, Word.toInt_add_one ⟨by omega, by omega⟩]
        omega
    · refine .inr ⟨fun up => ?_, fun down => ?_⟩
      · have := Int.mul_le_mul_of_nonneg_left within up.le
        omega
      · have := Int.mul_le_mul_of_nonpos_left down.le within
        omega

/-- Unless the loop is being left at the top, the variable is within its bounds. -/
theorem inRange {c₀ : Context} (now : c = (bounds iv c₀).2) : Leaving F c iv.loop s ∨
    InRange c₀ iv (s.values (.result iv.phi)).toInt := by
  subst now
  obtain ⟨last, bound, range⟩ := (bounds_ensures iv c₀).2 _ (.refl _)
  have value := iterates.value_eq lawful unwrapped step
  have first : ∀ k, iv.start.const? = some k → (iv.start.value s.assignment).toInt = k.toInt := by
    intro k constant
    rw [Expr.eq_const_of_const? constant]
    rfl
  have ends : Leaving F (bounds iv c₀).2 iv.loop s ∨ ∀ w, last = some w →
      (0 < d.toInt → (s.values (.result iv.phi)).toInt ≤ w.toInt) ∧
        (d.toInt < 0 → w.toInt ≤ (s.values (.result iv.phi)).toInt) := by
    cases last with
    | none => exact .inr fun w known => by cases known
    | some w =>
      refine (iterates.lastBound lawful unwrapped step (bound w rfl)).imp_right fun both w' known => ?_
      cases known
      exact both
  refine ends.imp_right fun ends => ?_
  have constant : iv.step.const?.getD 0 = d := by
    rw [step]
    rfl
  rw [constant] at range
  rcases lt_or_gt_of_ne (iterates.step_ne_zero lawful step) with down | up
  · have negative : d < 0 := Int64.lt_iff_toInt_lt.mpr down
    rw [if_pos negative] at range
    refine ⟨fun lo low => ?_, fun hi high => ?_⟩
    · rw [range] at low
      exact (ends lo low).2 down
    · rw [range] at high
      have := Int.mul_nonpos_of_nonpos_of_nonneg down.le (Int.natCast_nonneg (s.rounds iv.loop))
      have := first hi high
      omega
  · have positive : ¬ d < 0 := fun negative => (Int64.lt_iff_toInt_lt.mp negative).asymm up
    rw [if_neg positive] at range
    refine ⟨fun lo low => ?_, fun hi high => ?_⟩
    · rw [range] at low
      have := Int.mul_nonneg up.le (Int.natCast_nonneg (s.rounds iv.loop))
      have := first lo low
      omega
    · rw [range] at high
      exact (ends hi high).1 up

end Iterates

/-! ### Whatever was asked before -/

/-- In every iteration of its loop a recognized variable is within its bounds, unless control is at the top of
    the loop and about to leave it there. -/
theorem inRange_of_reached {f : Function} (wf : f.WellFormed) (questions more : List Question) {l : LoopId}
    (found : (recognize l (.asked f questions)).1 = some iv)
    (now : c = more.foldl Question.ask (recognize l (.asked f questions)).2) {s : State}
    (reached : Reached .exact (.ofFunction f) s) (inside : (Forest.ofFunction f).contains l s.place.block = true)
    (unwrapped : Unwrapped (.ofFunction f) (bounds iv c).2 iv s) :
    Leaving (.ofFunction f) (bounds iv c).2 l s ∨ InRange c iv (s.values (.result iv.phi)).toInt := by
  have lawful := Forest.lawful_ofFunction wf
  -- What was known when the variable was recognized is known now.
  have memory : OfMemory (recognize l (.asked f questions)).2.Extends :=
    fun forest memo earlier => ⟨forest.trans earlier.forest, fun v e known => memo ▸ earlier.memo v e known⟩
  have later : (recognize l (.asked f questions)).2.Extends c :=
    now ▸ memory.asked (fun v c earlier => earlier.trans ((Query.settles_evolution v).grows c)) (.refl _) more
  have sound : Sound (.ofFunction f) c := by
    have evolutions := Query.keeps_evolution lawful
    exact now ▸ ofMemory_sound.asked evolutions (keeps_recognize evolutions l _ (sound_asked wf questions)) more
  have steady : Steady (.ofFunction f) c := by
    have evolutions := Query.keeps_steady (F := .ofFunction f) wf
    have start : Steady (.ofFunction f) (.asked f questions) :=
      ofMemory_steady.asked evolutions ⟨rfl, fun v e known => by cases known⟩ questions
    exact now ▸ ofMemory_steady.asked evolutions (keeps_recognize evolutions l _ start) more
  have known := (recognize_ensures l (.asked f questions)).2 c later iv found
  obtain ⟨x, heads⟩ := (recognize_heads l (.asked f questions)).2 c later iv found
  rw [sound.forest] at heads
  obtain ⟨d, step⟩ := heads.exists_step lawful steady known
  obtain ⟨x', isLoop, inBlocks⟩ := Forest.contains_iff.mp inside
  obtain rfl := Option.some.inj (isLoop.symm.trans heads.found)
  obtain rfl := heads.loop
  have grown := (settles_bounds iv).grows c
  have iterates : Iterates (.ofFunction f) (bounds iv c).2 iv x' s :=
    ⟨keeps_bounds (Query.keeps_evolution lawful) ofMemory_sound iv c sound, known.later grown, heads, reached, inBlocks⟩
  exact iterates.inRange lawful unwrapped step rfl

/-- An element is read in every iteration before the test. -/
def readAhead : Function where
  name := "readAhead"
  receiver := none
  types := []
  params := [⟨"a", .slice (.basic .int), 1⟩]
  free := []
  globals := []
  constants := [⟨.int 0, .basic .int⟩, ⟨.int 1, .basic .int⟩, ⟨.int 10, .basic .int⟩]
  blocks := [
    ⟨"entry", [], [1], [⟨.jump, none, 0⟩]⟩,
    ⟨"for.body", [0, 2], [3, 2], [
      ⟨.phi [.const 0, .result ⟨2, 2⟩] "i", some ("t0", .basic .int), 0⟩,
      ⟨.indexAddress (.param 0) (.result ⟨1, 0⟩), some ("t1", .pointer (.basic .int)), 10⟩,
      ⟨.load (.result ⟨1, 1⟩), some ("t2", .basic .int), 0⟩,
      ⟨.binary (.compare .ge) (.result ⟨1, 0⟩) (.const 2), some ("t3", .basic .bool), 0⟩,
      ⟨.branch (.result ⟨1, 3⟩), none, 0⟩]⟩,
    ⟨"if.done", [1], [1], [
      ⟨.indexAddress (.param 0) (.const 2), some ("t4", .pointer (.basic .int)), 11⟩,
      ⟨.store (.result ⟨2, 0⟩) (.result ⟨1, 2⟩), none, 12⟩,
      ⟨.binary .add (.result ⟨1, 0⟩) (.const 1), some ("t5", .basic .int), 0⟩,
      ⟨.jump, none, 0⟩]⟩,
    ⟨"if.then", [1], [], [⟨.leave [], none, 0⟩]⟩]
  recover := none

theorem readAhead_wellFormed : readAhead.WellFormed :=
  ⟨by decide +kernel, by decide +kernel, by decide +kernel, by decide +kernel, by decide +kernel⟩

/-- In the last whole iteration the store runs with the upper bound. -/
theorem readAhead_inRange : ∃ iv s, (recognize 0 (.asked readAhead [])).1 = some iv ∧
    Reached .exact (.ofFunction readAhead) s ∧ s.place = ⟨2, 1⟩ ∧ s.values (.result iv.phi) = 9 ∧
    (bounds iv (recognize 0 (.asked readAhead [])).2).1 = (some 0, some 9) ∧
    Unwrapped (.ofFunction readAhead) (bounds iv (recognize 0 (.asked readAhead [])).2).2 iv s ∧
    InRange (recognize 0 (.asked readAhead [])).2 iv (s.values (.result iv.phi)).toInt := by
  have found : (recognize 0 (.asked readAhead [])).1 = some ⟨⟨1, 0⟩, 0, .const 0, .const 1⟩ := by decide +kernel
  have range : (bounds ⟨⟨1, 0⟩, 0, .const 0, .const 1⟩ (recognize 0 (.asked readAhead [])).2).1 = (some 0, some 9) := by
    decide +kernel
  have start : Reached .exact (.ofFunction readAhead) (initial readAhead) := reached_initial .exact (by decide +kernel)
  have reached := reached_run readAhead_wellFormed start 108
  have place : (run .exact (.ofFunction readAhead) 108 (initial readAhead)).place = ⟨2, 1⟩ := by decide +kernel
  have value : (run .exact (.ofFunction readAhead) 108 (initial readAhead)).values (.result ⟨1, 0⟩) = 9 := by
    decide +kernel
  generalize run .exact (.ofFunction readAhead) 108 (initial readAhead) = s at reached place value
  have inside : (Forest.ofFunction readAhead).contains 0 s.place.block = true := by
    rw [place]
    decide +kernel
  have loop : (Forest.ofFunction readAhead).loop? 0 =
      some (((Forest.ofFunction readAhead).loop? 0).get (by decide +kernel)) := (Option.some_get _).symm
  have unwrapped : Unwrapped (.ofFunction readAhead)
      (bounds ⟨⟨1, 0⟩, 0, .const 0, .const 1⟩ (recognize 0 (.asked readAhead [])).2).2
      ⟨⟨1, 0⟩, 0, .const 0, .const 1⟩ s := by
    refine ⟨by decide, fun x b t count counted => ?_, fun count counted => ?_, trivial⟩
    · obtain rfl := Option.some.inj (loop.symm.trans counted.loop)
      have isB := counted.candidate
      rw [show exitCandidates (.ofFunction readAhead) _ = [1] by decide +kernel, List.mem_singleton] at isB
      subst isB
      have test := counted.test
      rw [show (Query.exitTest? 0 1 _).1 = some ⟨.lt, 0, 1, 10⟩ by decide +kernel] at test
      cases test
      have failure := counted.failure
      rw [show ExitTest.failure? ⟨.lt, 0, 1, 10⟩ = some 10 by decide +kernel] at failure
      rw [← Option.some.inj failure]
      exact ⟨by decide, by decide⟩
    · rw [show (Query.tripCount 0 _).1 = some ⟨10, true⟩ by decide +kernel] at counted
      cases counted
      exact (by decide : Word.Fits ((0 : Int64).toInt + (1 : Int64).toInt * (10 : Int64).toInt))
  refine ⟨_, s, found, reached, place, value, range, unwrapped, ?_⟩
  rcases inRange_of_reached readAhead_wellFormed [] [] found rfl reached inside unwrapped with
    ⟨x, _, isLoop, _, header, _⟩ | inRange
  · obtain rfl := Option.some.inj (loop.symm.trans isLoop)
    rw [place] at header
    exact absurd header (by decide +kernel)
  · exact inRange

/-- In the iteration that leaves the loop the load runs beyond the upper bound. -/
theorem readAhead_beyond : ∃ iv s, (recognize 0 (.asked readAhead [])).1 = some iv ∧
    Reached .exact (.ofFunction readAhead) s ∧ readAhead.operation? s.place = some (.load (.result ⟨1, 1⟩)) ∧
    (Forest.ofFunction readAhead).contains 0 s.place.block = true ∧ s.values (.result iv.phi) = 10 ∧
    (bounds iv (recognize 0 (.asked readAhead [])).2).1 = (some 0, some 9) := by
  have start : Reached .exact (.ofFunction readAhead) (initial readAhead) := reached_initial .exact (by decide +kernel)
  have place : (run .exact (.ofFunction readAhead) 114 (initial readAhead)).place = ⟨1, 2⟩ := by decide +kernel
  refine ⟨⟨⟨1, 0⟩, 0, .const 0, .const 1⟩, _, by decide +kernel, reached_run readAhead_wellFormed start 114, ?_, ?_,
    by decide +kernel, by decide +kernel⟩
  · rw [place]
    rfl
  · rw [place]
    decide +kernel

end LoopConflict.Access
