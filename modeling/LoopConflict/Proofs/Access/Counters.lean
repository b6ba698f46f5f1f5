import LoopConflict.Proofs.Access.Memory
import LoopConflict.Proofs.Evolution.Moving
import LoopConflict.Proofs.Execution.Values

/-!
What recognized variables are good for. A variable belongs to a phi in the header of its loop, which is entered from
one block (`InductionVariable.Heads`). Its step is constant: either that was looked at, or the edges of the phi show
that it counts from zero in steps of one, and then so does its recurrence (`Heads.recurrence_of_counter?`), although
that one is found without looking for the last edges. Recurrences never stand still, and no two loops share a variable.
All this needs no more of a function than that integers are computed from integers (`usable_of_recognized`).
-/
namespace LoopConflict.Access

open Loop (Forest LoopId NaturalLoop IsNatural isConstant isIncrement isCounter lastEdge?)
open Program (Function Place Value Operation)
open Evolution
open Execution (Counts exists_counts adds_of_stepOf?)

variable {F : Forest} {c : Context} {ivs : Variables} {iv : InductionVariable}

/-! ### Recognized variables -/

/-- The variable of a loop belongs to a phi in its header, which has one predecessor outside. Its step is constant,
    unless it is found as a canonical counter. -/
structure InductionVariable.Heads (F : Forest) (l : LoopId) (iv : InductionVariable) (x : NaturalLoop) : Prop where
  loop : iv.loop = l
  found : F.loop? l = some x
  phi : iv.phi ∈ x.phis F.function
  entry : (x.entry? F.function).isSome = true
  step : iv.step.const?.isSome = true ∨ x.counter? F.function = some iv.phi

theorem header_of_mem_phis {x : NaturalLoop} {f : Function} {p : Place} (member : p ∈ x.phis f) : p.block = x.header := by
  obtain ⟨i, _, rfl⟩ := List.mem_map.mp ((List.takeWhile_sublist _).subset member)
  rfl

theorem InductionVariable.Heads.header {l : LoopId} {x : NaturalLoop} (heads : iv.Heads F l x) :
    iv.phi.block = x.header :=
  header_of_mem_phis heads.phi

theorem loop_of_asVariable? {l : LoopId} {phi : Place} {e : Expr} (found : asVariable? l phi e = some iv) :
    iv.loop = l := by
  cases e with
  | recur m start step =>
    rw [asVariable?] at found
    split at found <;> cases found
    rfl
  | _ => cases found

theorem exists_of_counter? {x : NaturalLoop} {f : Function} {phi : Place} (found : x.counter? f = some phi) :
    ∃ entry latch, x.entry? f = some entry ∧ x.latch? = some latch ∧ phi ∈ x.phis f ∧
      isCounter f x entry latch phi = true := by
  simp only [NaturalLoop.counter?, Option.bind_eq_bind, Option.bind_eq_some_iff] at found
  obtain ⟨entry, isEntry, latch, isLatch, found⟩ := found
  exact ⟨entry, latch, isEntry, isLatch, List.mem_of_find?_eq_some found, List.find?_some found⟩

theorem firstCounting_found (l : LoopId) (phis : List Place) :
    Ensures id (firstCounting l phis) fun found _ => ∀ iv, found = some iv →
      iv.loop = l ∧ iv.phi ∈ phis ∧ iv.step.const?.isSome = true := by
  induction phis with
  | nil => exact ensures_pure fun _ _ found => by cases found
  | cons phi rest ih =>
    have others : Ensures id (firstCounting l rest) fun found _ => ∀ iv, found = some iv →
        iv.loop = l ∧ iv.phi ∈ phi :: rest ∧ iv.step.const?.isSome = true :=
      ih.mono fun _ _ known iv found => by simp [known iv found]
    refine ensures_get fun c₀ => ?_
    dsimp only
    split
    · refine (Query.ensures_evolution (.result phi)).bind fun e => ?_
      split
      · rename_i iv isVariable
        split
        · rename_i constant
          refine ensures_pure fun c _ _ iv' found => ?_
          cases found
          exact ⟨loop_of_asVariable? isVariable, by simp [(recurrence_of_asVariable? isVariable).1], constant⟩
        · exact others.mono fun _ _ known _ _ => known
      · exact others.mono fun _ _ known _ _ => known
    · exact others.mono fun _ _ known _ => known

theorem recognize_heads (l : LoopId) :
    Ensures id (recognize l) fun found c => ∀ iv, found = some iv → ∃ x, iv.Heads c.forest l x := by
  refine ensures_get fun c₀ => ?_
  dsimp only
  split
  · exact ensures_pure fun _ _ _ found => by cases found
  · rename_i x isLoop
    have others : Ensures id (if x.latch?.isSome && (x.entry? c₀.forest.function).isSome then
        firstCounting l (x.phis c₀.forest.function) else pure none) fun found c =>
          Context.Extends c₀ c → ∀ iv, found = some iv → ∃ x, iv.Heads c.forest l x := by
      split
      · rename_i single
        refine (firstCounting_found l _).mono fun found c known later iv isFound => ?_
        obtain ⟨loop, phi, constant⟩ := known iv isFound
        rw [later.forest]
        exact ⟨x, loop, isLoop, phi, (Bool.and_eq_true_iff.mp single).2, .inl constant⟩
      · exact ensures_pure fun _ _ _ found => by cases found
    split
    · exact others
    · rename_i phi counter
      refine (Query.ensures_evolution (.result phi)).bind fun e => ?_
      split
      · rename_i iv isVariable
        obtain ⟨rfl, _⟩ := recurrence_of_asVariable? isVariable
        refine ensures_pure fun c _ later iv' found => ?_
        cases found
        obtain ⟨entry, _, isEntry, _, member, _⟩ := exists_of_counter? counter
        rw [show c.forest = c₀.forest from Context.Extends.forest later]
        exact ⟨x, loop_of_asVariable? isVariable, isLoop, member, by rw [isEntry]; rfl, .inr counter⟩
      · exact others.mono fun _ _ known _ => known

theorem recognizeEach_heads (loops : List LoopId) :
    Ensures id (recognizeEach loops) fun ivs c => ∀ iv ∈ ivs, ∃ x, iv.Heads c.forest iv.loop x := by
  refine recognizeEach_all (fun l => (recognize_heads l).mono fun _ c headed iv found => ?_) loops
  obtain ⟨x, heads⟩ := headed iv found
  exact ⟨x, heads.loop.symm ▸ heads⟩

/-- What is known of a variable once all of them are recognized. -/
theorem known_of_recognized (member : iv ∈ (recognizeAll c).1) :
    iv.Known (recognizeAll c).2 ∧ ∃ x, iv.Heads (recognizeAll c).2.forest iv.loop x :=
  ⟨(recognizeEach_ensures _ c).2 _ (.refl _) iv member, (recognizeEach_heads _ c).2 _ (.refl _) iv member⟩

theorem InductionVariable.Known.later (known : iv.Known c) {c' : Context} (later : c.Extends c') : iv.Known c' :=
  ⟨later.function ▸ known.phi, later.memo _ _ known.evolution⟩

/-! ### Constant steps -/

theorem mem_of_lastEdge? {preds : List Nat} {edges : List Value} {b : Nat} {v : Value}
    (found : lastEdge? preds edges b = some v) : (b, v) ∈ preds.zip edges := by
  obtain ⟨⟨b', v⟩, isLast, rfl⟩ := Option.map_eq_some_iff.mp found
  obtain ⟨edge, isB⟩ := List.mem_filter.mp (List.mem_of_getLast? isLast)
  obtain rfl : b' = b := beq_iff_eq.mp isB
  exact edge

/-- A canonical counter has an edge with zero and one with its increment. -/
theorem exists_edges_of_isCounter {f : Function} {x : NaturalLoop} {entry latch : Nat} {phi : Place}
    (counts : isCounter f x entry latch phi = true) :
    ∃ edges comment, f.operation? phi = some (.phi edges comment) ∧ f.isInteger (.result phi) = true ∧
      (∃ start, (entry, start) ∈ (f.preds x.header).zip edges ∧ isConstant f 0 start = true) ∧
      ∃ next, (latch, next) ∈ (f.preds x.header).zip edges ∧ isIncrement f phi next = true := by
  unfold isCounter at counts
  split at counts
  · rename_i edges comment isPhi
    simp only [Bool.and_eq_true, Option.any_eq_true] at counts
    obtain ⟨⟨integer, start, first, zero⟩, next, last, increments⟩ := counts
    exact ⟨edges, comment, isPhi, integer, ⟨start, mem_of_lastEdge? first, zero⟩, next, mem_of_lastEdge? last, increments⟩
  · cases counts

/-- What is one more than the phi counts up in steps of one. -/
theorem step_of_isIncrement {f : Function} {phi : Place} (isPhi : f.IsPhi phi) {next step : Value} {down : Bool}
    (increments : isIncrement f phi next = true) (found : stepOf? f phi next = some (step, down)) :
    isConstant f 1 step = true ∧ down = false := by
  have notConstant : isConstant f 1 (.result phi) = false := by
    obtain ⟨edges, comment, here⟩ := isPhi
    simp [isConstant, Function.definition?, Value.place?, here, Function.constant?]
  unfold isIncrement at increments
  split at increments
  · rename_i x y defined
    simp only [stepOf?, defined] at found
    simp only [Bool.or_eq_true, Bool.and_eq_true, beq_iff_eq] at increments
    split at found
    · rename_i same
      cases found
      refine ⟨?_, rfl⟩
      rcases increments with ⟨_, constant⟩ | ⟨_, constant⟩
      · exact constant
      · rw [same, notConstant] at constant
        cases constant
    · rename_i other
      split at found
      · cases found
        exact ⟨(increments.resolve_left fun both => other both.1).2, rfl⟩
      · cases found
  · cases increments

theorem isInteger_step {f : Function} (typed : f.integersTyped = true) {phi : Place} {next step : Value} {down : Bool}
    (found : stepOf? f phi next = some (step, down)) (integer : f.isInteger next = true) : f.isInteger step = true := by
  obtain ⟨q, operation, rfl, here, adds⟩ := adds_of_stepOf? found
  refine Function.isInteger_operand typed here integer ?_
  rcases adds with ⟨_, rfl | rfl⟩ | ⟨_, rfl⟩ <;> simp [Function.integerOperands]

/-- The only predecessor outside of the loop. -/
theorem outside_iff_of_entry {f : Function} {x : NaturalLoop} {b : Nat} (found : x.entry? f = some b) (p : Nat) :
    p ∈ f.preds x.header ∧ p ∉ x.blocks ↔ p = b := by
  have outside : p ∈ f.preds x.header ∧ p ∉ x.blocks ↔ p ∈ (f.preds x.header).filter fun b => !x.contains b := by
    simp [NaturalLoop.contains]
  rw [outside]
  unfold NaturalLoop.entry? at found
  split at found
  · cases found
  · rename_i first rest entries
    rw [entries, List.mem_cons]
    split at found
    · rename_i same
      cases found
      exact or_iff_left_of_imp fun later => beq_iff_eq.mp (List.all_eq_true.mp same p later)
    · cases found

section

variable (natural : ∀ {l x}, F.loop? l = some x → IsNatural F.function x.header x.latches x.blocks)
include natural

/-- The loop that a phi counts in has the same back edges as the one that its block heads. -/
theorem latch_mem_of_counts {l : LoopId} {x y : NaturalLoop} {phi : Place} (found : F.loop? l = some x)
    (header : phi.block = x.header) {edges : List Value} {k : Counting} {next : Value}
    (counts : Counts F phi edges k y next) {latch : Nat} (isLatch : x.latch? = some latch) : latch ∈ y.blocks := by
  have member : latch ∈ x.latches := by
    unfold NaturalLoop.latch? at isLatch
    split at isLatch
    · rename_i single
      cases isLatch
      simp [single]
    · cases isLatch
  refine (natural counts.loop).latch_mem (((natural counts.loop).isLatch latch).mpr ?_)
  rw [counts.header, header]
  exact ((natural found).isLatch latch).mp member

variable (typed : F.function.integersTyped = true) (steady : Steady F c) (known : iv.Known c) {l : LoopId}
  {x : NaturalLoop} (heads : iv.Heads F l x)
include typed steady known heads

/-- The recurrence of a canonical counter starts at zero and has step one. -/
theorem InductionVariable.Heads.recurrence_of_counter? (counter : x.counter? F.function = some iv.phi) :
    iv.recurrence = .recur l (.const 0) (.const 1) := by
  obtain ⟨entry, latch, isEntry, isLatch, _, counts⟩ := exists_of_counter? counter
  obtain ⟨edges, comment, isPhi, integer, ⟨start, first, zero⟩, next, last, increments⟩ :=
    exists_edges_of_isCounter counts
  rw [← heads.header] at first last
  have integers : ∀ v ∈ edges, F.function.isInteger v = true :=
    fun v member => Function.isInteger_operand typed isPhi integer member
  rcases (steady.memo _ _ known.evolution).counter iv.phi edges comment rfl isPhi with
    ⟨_, _, unknown⟩ | ⟨k, counting, ofCounting⟩
  · cases unknown
  · obtain ⟨y, next', counted⟩ := exists_counts counting
    have inside := latch_mem_of_counts natural heads.found heads.header counted isLatch
    obtain rfl : next = next' := counted.nexts _ last inside
    obtain ⟨one, up⟩ := step_of_isIncrement ⟨edges, comment, isPhi⟩ increments counted.step
    have integerStep := isInteger_step typed counted.step (integers next (List.of_mem_zip last).2)
    obtain ⟨start', recurs, starts⟩ := ofCounting 1 ⟨one, integerStep⟩ (by decide) up
    -- Now the phi is known to count in the loop itself, and so its start comes from the entry.
    have loop : k.loop = l := (Expr.recur.inj recurs).1.symm.trans heads.loop
    obtain rfl : x = y := Option.some.inj (heads.found.symm.trans (loop ▸ counted.loop))
    have outside := ((outside_iff_of_entry isEntry entry).mpr rfl).2
    obtain rfl : start = k.start := counted.starts _ first outside
    rw [recurs, loop, starts 0 ⟨zero, integers k.start (List.of_mem_zip first).2⟩]

theorem InductionVariable.Heads.exists_step_of_typed : ∃ d, iv.step = .const d := by
  rcases heads.step with constant | counter
  · obtain ⟨d, isConstant⟩ := Option.isSome_iff_exists.mp constant
    exact ⟨d, Expr.eq_const_of_const? isConstant⟩
  · exact ⟨1, (Expr.recur.inj (heads.recurrence_of_counter? natural typed steady known counter)).2.2⟩

end

theorem InductionVariable.Heads.exists_step (lawful : F.Lawful) (steady : Steady F c) (known : iv.Known c) {l : LoopId}
    {x : NaturalLoop} (heads : iv.Heads F l x) : ∃ d, iv.step = .const d :=
  heads.exists_step_of_typed lawful.natural lawful.function.integersTyped steady known

/-! ### Variables of different loops -/

theorem mem_of_ofLoop? {l : LoopId} (found : ivs.ofLoop? l = some iv) : iv ∈ ivs ∧ iv.loop = l :=
  ⟨List.mem_of_find?_eq_some found, by simpa using List.find?_some found⟩

/-- Variables come in the order of the loops, with one for each loop at most. -/
theorem recognizeEach_sublist (loops : List LoopId) :
    Ensures id (recognizeEach loops) fun ivs _ => (ivs.map (·.loop)).Sublist loops := by
  induction loops with
  | nil => exact ensures_pure fun _ => .slnil
  | cons l rest ih =>
    refine (recognize_heads l).bind fun found => ih.bind fun ivs => ensures_pure fun c others first => ?_
    cases found with
    | none => exact others.cons l
    | some iv =>
      obtain ⟨x, heads⟩ := first iv rfl
      rw [Option.toList_some, List.singleton_append, List.map_cons, heads.loop]
      exact others.cons_cons l

/-- A variable is found by its recurrence, if no two variables are of the same loop. -/
theorem withRecurrence?_recurrence (once : (ivs.map (·.loop)).Nodup) (member : iv ∈ ivs) :
    ivs.withRecurrence? iv.recurrence = some iv := by
  cases found : ivs.withRecurrence? iv.recurrence with
  | none => exact absurd (beq_self_eq_true _) (List.find?_eq_none.mp found iv member)
  | some iv' =>
    have same : iv'.recurrence = iv.recurrence := by simpa using List.find?_some found
    have inside : iv' ∈ ivs := List.mem_of_find?_eq_some found
    rw [List.inj_on_of_nodup_map once inside member (Expr.recur.inj same).1]

/-! ### Usable variables -/

/-- What can be done with a variable that was recognized among others, in the given context. -/
structure InductionVariable.Usable (f : Function) (ivs : Variables) (c : Context) (l : LoopId) (iv : InductionVariable)
    (x : NaturalLoop) : Prop where
  found : (Forest.ofFunction f).loop? l = some x
  phi : iv.phi ∈ x.phis f
  /-- The recurrence is the one of the phi. -/
  evolution : (Query.evolution (.result iv.phi) c).1 = iv.recurrence
  step : ∃ d, d ≠ 0 ∧ iv.recurrence = .recur l iv.start (.const d)
  /-- The loop is entered from one block. -/
  entry : ∃ b, ∀ p, p ∈ f.preds x.header ∧ p ∉ x.blocks ↔ p = b
  lookup : ivs.withRecurrence? iv.recurrence = some iv
  /-- No other loop has the same recurrence. -/
  alone : ∀ l' iv', ivs.ofLoop? l' = some iv' → iv'.recurrence = iv.recurrence → l' = l
  canonical : x.counter? f = some iv.phi → iv.recurrence = .recur l (.const 0) (.const 1)

/-- Whatever was asked before and after, all variables that are recognized are usable, if integers are computed from
    integers. -/
theorem usable_of_recognized {f : Function} (typed : f.integersTyped = true) (questions more : List Question) {l : LoopId}
    (found : (recognizeAll (.asked f questions)).1.ofLoop? l = some iv) :
    ∃ x, iv.Usable f (recognizeAll (.asked f questions)).1
      (more.foldl Question.ask (recognizeAll (.asked f questions)).2) l x := by
  obtain ⟨member, rfl⟩ := mem_of_ofLoop? found
  have steady : Steady (.ofFunction f) (recognizeAll (.asked f questions)).2 := by
    have evolutions := Query.keeps_steady_of_typed (F := .ofFunction f) typed
    have start : Steady (.ofFunction f) (.asked f questions) :=
      ofMemory_steady.asked evolutions ⟨rfl, fun v e known => by cases known⟩ questions
    exact keeps_recognizeAll evolutions _ start
  obtain ⟨known, x, heads⟩ := known_of_recognized member
  rw [steady.forest] at heads
  obtain ⟨entry, isEntry⟩ := Option.isSome_iff_exists.mp heads.entry
  have once : ((recognizeAll (.asked f questions)).1.map (·.loop)).Nodup :=
    ((recognizeEach_sublist _ (.asked f questions)).2 _ (.refl _)).nodup List.nodup_range
  refine ⟨x, heads.found, heads.phi, ?_, ?_, ⟨entry, outside_iff_of_entry isEntry⟩,
    withRecurrence?_recurrence once member, ?_, heads.recurrence_of_counter? Forest.isNatural typed steady known⟩
  · have later := known.later (Context.extends_asked _ more)
    rw [evolution_eq, evolutionWithin_of_lookup later.evolution]
  · obtain ⟨d, step⟩ := heads.exists_step_of_typed Forest.isNatural typed steady known
    refine ⟨d, ?_, by rw [InductionVariable.recurrence, step]⟩
    rintro rfl
    have moving := keeps_recognizeAll keeps_moving _ (moving_asked f questions)
    exact moving.memo _ _ known.evolution iv.loop iv.start iv.step .self step
  · intro l' iv' other same
    rw [← (mem_of_ofLoop? other).2]
    exact (Expr.recur.inj same).1

/-- Rows are counted up under a declared type, and from each of them columns are counted down in steps of two. Both
    ways out of the first block lead to the rows. -/
def slopes : Function where
  name := "slopes"
  receiver := none
  types := [⟨"Row", .basic .int⟩]
  params := [⟨"ok", .basic .bool, 1⟩]
  free := []
  globals := []
  constants := [⟨.int 0, .basic .int⟩, ⟨.int 1, .named 0⟩, ⟨.int 2, .basic .int⟩, ⟨.int 10, .named 0⟩]
  blocks := [
    ⟨"entry", [], [1, 1], [
      ⟨.changeType (.const 0), some ("t0", .named 0), 0⟩,
      ⟨.branch (.param 0), none, 0⟩]⟩,
    ⟨"for.loop", [0, 0, 4], [2, 5], [
      ⟨.phi [.result ⟨0, 0⟩, .result ⟨0, 0⟩, .result ⟨4, 0⟩] "i", some ("t1", .named 0), 0⟩,
      ⟨.binary (.compare .lt) (.result ⟨1, 0⟩) (.const 3), some ("t2", .basic .bool), 0⟩,
      ⟨.branch (.result ⟨1, 1⟩), none, 0⟩]⟩,
    ⟨"for.body", [1], [3], [
      ⟨.changeType (.result ⟨1, 0⟩), some ("t3", .basic .int), 0⟩,
      ⟨.jump, none, 0⟩]⟩,
    ⟨"for.loop", [2, 3], [3, 4], [
      ⟨.phi [.result ⟨2, 0⟩, .result ⟨3, 1⟩] "j", some ("t4", .basic .int), 0⟩,
      ⟨.binary .sub (.result ⟨3, 0⟩) (.const 2), some ("t5", .basic .int), 0⟩,
      ⟨.binary (.compare .gt) (.result ⟨3, 1⟩) (.const 0), some ("t6", .basic .bool), 0⟩,
      ⟨.branch (.result ⟨3, 2⟩), none, 0⟩]⟩,
    ⟨"for.done", [3], [1], [
      ⟨.binary .add (.result ⟨1, 0⟩) (.const 1), some ("t7", .named 0), 0⟩,
      ⟨.jump, none, 0⟩]⟩,
    ⟨"for.done", [1], [], [⟨.leave [], none, 0⟩]⟩]
  recover := none

/-- Both variables are usable, after one of them was asked for from inside of its loop. -/
theorem slopes_usable : slopes.integersTyped = true ∧ ∃ rows columns : InductionVariable,
    (recognizeAll (.asked slopes [.evolution (.result ⟨4, 0⟩)])).1 = [rows, columns] ∧
      rows.recurrence = .recur 0 (.const 0) (.const 1) ∧ columns.recurrence = .recur 1 rows.recurrence (.const (-2)) ∧
      (∃ c x, rows.Usable slopes [rows, columns] c 0 x) ∧ ∃ c x, columns.Usable slopes [rows, columns] c 1 x := by
  have typed : slopes.integersTyped = true := by decide +kernel
  have both : (recognizeAll (.asked slopes [.evolution (.result ⟨4, 0⟩)])).1 =
      [⟨⟨1, 0⟩, 0, .const 0, .const 1⟩, ⟨⟨3, 0⟩, 1, .recur 0 (.const 0) (.const 1), .const (-2)⟩] := by decide +kernel
  have loops (l : LoopId) := congrArg (Variables.ofLoop? · l) both
  obtain ⟨x, rows⟩ := usable_of_recognized typed _ [.tripCount 1] (loops 0)
  obtain ⟨y, columns⟩ := usable_of_recognized typed _ [.tripCount 1] (loops 1)
  rw [both] at rows columns
  exact ⟨typed, _, _, both, rfl, rfl, ⟨_, x, rows⟩, _, y, columns⟩

end LoopConflict.Access
