import LoopConflict.Proofs.Evolution.TripCount

/-!
Expressions as they are seen from a scope. What is seen is the expression with the trip counts put in for the
iteration numbers of all loops that are not around the scope and have one (`atScope_substitutes`). So the
value that is seen is the right one if control leaves these loops only after as many back edges, which holds
of loops that cannot be left but where the count comes from (`atScope_eq_value`). It does not hold of loops
that can be left earlier, like the one of `find`.
-/
namespace LoopConflict.Evolution

open Loop (Forest LoopId NaturalLoop)
open Program (Function Value Place Operation)
open Execution (State Mode Reached Step run initial reached_run reached_initial)

variable {F : Forest}

/-! ### Finished loops -/

/-- The assignment with the iteration numbers of finished loops as their trip counts say. -/
def finished (c : Context) (scope : Option LoopId) (a : Assignment) : Assignment :=
  { a with rounds := fun l =>
      if isAround c.forest l scope then a.rounds l
      else ((Query.tripCount l c).1.map (·.backedges)).getD (a.rounds l) }

section

variable {c : Context} {scope : Option LoopId} {l : LoopId} {a : Assignment}

theorem finished_of_isAround (around : isAround c.forest l scope = true) : (finished c scope a).rounds l = a.rounds l :=
  if_pos around

theorem finished_of_tripCount (outside : isAround c.forest l scope = false) :
    (finished c scope a).rounds l = ((Query.tripCount l c).1.map (·.backedges)).getD (a.rounds l) := by
  simp [finished, outside]

end

/-- The loop is around the scope, or nothing is known about how often it runs. -/
def Remains (c : Context) (scope : Option LoopId) (l : LoopId) : Prop :=
  isAround c.forest l scope = true ∨ (Query.tripCount l c).1 = none

/-- The expression stands for what `e` does once the finished loops are counted, and has no recurrence over any of
    them. -/
def Sees (c : Context) (scope : Option LoopId) (e seen : Expr) : Prop :=
  ∀ a, Means a (Remains c scope) (fun _ => True) (e.value (finished c scope a)) seen

/-- What holds of an answer in every context. -/
theorem ensures_always {q : Query Expr} (grows : Grows q) {P : Expr → Prop} (holds : ∀ c, P (q c).1) :
    Ensures id q fun e _ => P e :=
  fun c => ⟨grows c, fun _ _ => holds c⟩

/-- A combination of what is seen of the operands. -/
theorem ensures_combine (op : Combination) (ops : List Expr) : Ensures id (Query.combine op ops) fun e _ =>
    ∀ a L, Expr.AllOver L (fun _ => True) ops → Means a L (fun _ => True) (op.value a ops) e :=
  ensures_always (Query.settles_combine op ops).grows fun c _ _ uses => Query.means_combine c op uses

mutual

/-- What is seen from a scope stands for the expression with the finished loops counted. -/
theorem atScope_sees (scope : Option LoopId) : ∀ e, Ensures id (Query.atScope scope e) fun seen c => Sees c scope e seen
  | .recur l s t => by
    rw [Query.atScope]
    refine (Query.grows_noWrap _).ensures.bind fun noWrap => (atScope_sees scope s).bind fun start =>
      (atScope_sees scope t).bind fun step => ensures_get fun c₀ => ?_
    have recurs : Ensures id (Query.recur l start step noWrap) fun e _ => ∀ a (L : LoopId → Prop) m n,
        Means a L (fun _ => True) m start → Means a L (fun _ => True) n step → L l →
          Means a L (fun _ => True) (m + n * a.rounds l) e :=
      ensures_always (Query.settles_recur l start step noWrap noWrap).grows
        fun c _ _ _ _ isStart isStep loop => Query.means_recur c isStart isStep loop noWrap
    split
    · rename_i around
      refine recurs.mono fun e c means later isStep isStart _ a => ?_
      have around : isAround c.forest l scope = true := later.forest ▸ around
      refine (means a _ _ _ (isStart a) (isStep a) (.inl around)).of_eq ?_
      rw [Expr.value, finished_of_isAround around]
    · rename_i outside
      refine (Query.settles_tripCount l).ensures.bind fun count => ?_
      cases count with
      | none =>
        refine recurs.mono fun e c means unknown later isStep isStart _ a => ?_
        refine (means a _ _ _ (isStart a) (isStep a) (.inr unknown)).of_eq ?_
        rw [Expr.value, finished_of_tripCount (later.forest ▸ by simpa using outside), unknown]
        rfl
      | some count =>
        refine (Query.settles_const count.backedges).ensures.bind fun n =>
          (ensures_combine .product [step, n]).bind fun growth => ?_
        refine (ensures_combine .sum [start, growth]).mono
          fun e c isSum isProduct isCount known later isStep isStart _ a => ?_
        obtain rfl : n = .const count.backedges := isCount.symm.trans (Query.const_fst _ c)
        have isGrowth := isProduct a (Remains c scope) ⟨(isStep a).uses, trivial, trivial⟩
        refine (isSum a (Remains c scope) ⟨(isStart a).uses, isGrowth.uses, trivial⟩).of_eq ?_
        rw [Expr.value, finished_of_tripCount (later.forest ▸ by simpa using outside), known]
        simp only [Combination.value, Expr.total, Expr.totalProduct, isGrowth.value, (isStart a).value, (isStep a).value,
          Expr.value, Option.map_some, Option.getD_some, Int64.add_zero, Int64.mul_one]
  | .sum k ts => by
    rw [Query.atScope]
    refine (allAtScope_sees scope ts).bind fun terms => (ensures_combine .sum _).mono fun e c isSum isTerms a => ?_
    refine (isSum a (Remains c scope) ⟨trivial, (isTerms a).2.2⟩).of_eq ?_
    rw [Combination.value, Expr.total, (isTerms a).1, Expr.value, Expr.value]
  | .product k ts => by
    rw [Query.atScope]
    refine (allAtScope_sees scope ts).bind fun factors =>
      (ensures_combine .product _).mono fun e c isProduct isFactors a => ?_
    refine (isProduct a (Remains c scope) ⟨trivial, (isFactors a).2.2⟩).of_eq ?_
    rw [Combination.value, Expr.totalProduct, (isFactors a).2.1, Expr.value, Expr.value]
  | .const n => by
    rw [Query.atScope]
    · exact ensures_pure fun _ _ => ⟨rfl, trivial⟩
    all_goals simp
  | .unknown number v => by
    rw [Query.atScope]
    · exact ensures_pure fun _ _ => ⟨rfl, trivial⟩
    all_goals simp

theorem allAtScope_sees (scope : Option LoopId) : ∀ es, Ensures id (Query.allAtScope scope es) fun seen c =>
    ∀ a, Expr.total a seen = Expr.total (finished c scope a) es ∧
      Expr.totalProduct a seen = Expr.totalProduct (finished c scope a) es ∧
      Expr.AllOver (Remains c scope) (fun _ => True) seen
  | [] => by
    rw [Query.allAtScope]
    exact ensures_pure fun _ _ => ⟨rfl, rfl, trivial⟩
  | e :: es => by
    rw [Query.allAtScope]
    refine (atScope_sees scope e).bind fun first => (allAtScope_sees scope es).bind fun rest =>
      ensures_pure fun c isRest isFirst a => ?_
    obtain ⟨sum, product, uses⟩ := isRest a
    refine ⟨?_, ?_, (isFirst a).uses, uses⟩
    · rw [Expr.total, Expr.total, (isFirst a).value, sum]
    · rw [Expr.totalProduct, Expr.totalProduct, (isFirst a).value, product]

end

theorem atScope_ensures (scope : Option LoopId) (e : Expr) : Ensures id (Query.atScope scope e) fun seen c =>
    ∀ a, seen.value a = e.value (finished c scope a) :=
  (atScope_sees scope e).mono fun _ _ sees a => (sees a).value

/-- What is seen from a scope is the expression with the trip counts put in for the iteration numbers of the loops
    that are not around the scope, whatever the unknown values and the other iteration numbers are, and no recurrence
    over a loop that was counted is left in it. The counts are those that are told afterwards; one that was told before
    is still the same. -/
theorem atScope_substitutes (c : Context) (scope : Option LoopId) (e : Expr) :
    (∀ a, (Query.atScope scope e c).1.value a = e.value (finished (Query.atScope scope e c).2 scope a)) ∧
    (Query.atScope scope e c).1.Over (Remains (Query.atScope scope e c).2 scope) (fun _ => True) ∧
    ∀ l, (Query.tripCount l (Query.atScope scope e (Query.tripCount l c).2).2).1 = (Query.tripCount l c).1 := by
  have sees := (atScope_sees scope e c).2 _ (.refl _)
  refine ⟨fun a => (sees a).value, (sees ⟨fun _ => 0, fun _ => 0⟩).uses, fun l => ?_⟩
  exact ((Query.settles_tripCount l c).2 _ ((Query.settles_atScope scope e).grows _)).1

/-- Outside of both loops of four iterations each, all of them are over; in the outer loop only the inner ones are. -/
example : (Query.atScope none (.recur 1 (.recur 0 (.const 0) (.const 10)) (.const 1)) (.asked grid [])).1 = .const 33 ∧
    (Query.atScope (some 0) (.recur 1 (.recur 0 (.const 0) (.const 10)) (.const 1)) (.asked grid [])).1 =
      .recur 0 (.const 3) (.const 10) := by
  decide +kernel

/-! ### Counts that hold -/

/-- The trip count of the loop, if there is one, is how often its back edges were taken whenever it is left. -/
def CountHolds (F : Forest) (c : Context) (l : LoopId) : Prop :=
  ∀ count, (Query.tripCount l c).1 = some count → LeavesAfter F l count.backedges

/-- The loop can be left at one block only, and no test there wraps around until it fails. -/
def LeftByTest (F : Forest) (c : Context) (l : LoopId) : Prop :=
  ∃ x b, F.loop? l = some x ∧ x.exiting F.function = [b] ∧ ∀ count t, (Query.tripCount l c).1 = some count →
    (Query.exitTest? l b (Query.tripCount l c).2).1 = some t → t.Fits ∧ Word.Fits (t.tested count.backedges.toInt)

theorem LeftByTest.countHolds (lawful : F.Lawful) {c : Context} (sound : Sound F c) {l : LoopId}
    (left : LeftByTest F c l) : CountHolds F c l := by
  obtain ⟨x, b, loop, sole, fits⟩ := left
  intro count found
  obtain ⟨x', b', t, counted⟩ := exists_countedAt sound.forest found
  obtain rfl := Option.some.inj (loop.symm.trans counted.loop)
  -- The count comes from a block where the loop can be left.
  have same : b' = b := by
    have candidate := counted.candidate
    simp only [exitCandidates, sole, List.mem_append, List.mem_filter, List.mem_singleton] at candidate
    exact candidate.elim (·.1) (·.1)
  subst same
  obtain ⟨wide, exit⟩ := fits count t found counted.test
  have later := Query.keeps_tripCount (Query.keeps_evolution lawful) l c sound
  exact (counted.decides lawful later wide exit).leavesAfter lawful sole

/-- Behind a loop the number of its back edges is the one that it was left with. -/
theorem rounds_of_left (lawful : F.Lawful) {l : LoopId} {n : Int64} (leaves : LeavesAfter F l n) {x : NaturalLoop}
    (loop : F.loop? l = some x) {s : State} (reached : Reached .exact F s)
    (entered : F.function.dominates x.header s.place.block = true)
    (outside : F.contains l s.place.block = false) : Int64.ofNat (s.rounds l) = n := by
  have wf := lawful.function
  have inLoop : F.contains l x.header = true := by
    simpa [Forest.contains, loop, NaturalLoop.contains] using (lawful.natural loop).header_mem wf.connected
  have notHeader : ∀ {b}, F.contains l b = false → x.header ≠ b := by
    rintro b notInLoop rfl
    rw [inLoop] at notInLoop
    cases notInLoop
  induction reached with
  | start start => exact absurd (Function.eq_of_dominates_root start.root start.block entered) (notHeader outside)
  | @step s s' reached step ih =>
    cases step with
    | skip _ => exact ih entered outside
    | compute _ _ _ => exact ih entered outside
    | @move b j atEnd follows edge =>
      have other : x.header ≠ b := notHeader outside
      have rounds : (s.enter F b j).rounds l = s.rounds l := by
        simp [State.enter, State.counted, loop, other]
      rw [rounds]
      cases before : F.contains l s.place.block with
      | true => exact leaves s _ reached (.move atEnd follows edge) before outside
      | false =>
        exact ih (Function.dominates_pred entered other follows.1 (wf.connected.mem_blockIds_of_succ follows.1)) before

/-- A block is outside of all loops but the ones around its innermost loop. -/
theorem not_contains_of_innermost? (lawful : F.Lawful) {l : LoopId} {b : Nat}
    (other : isAround F l (F.innermost? b) = false) : F.contains l b = false := by
  cases inside : F.contains l b with
  | false => rfl
  | true =>
    obtain ⟨s, innermost⟩ := Forest.exists_innermost? inside
    rw [innermost, isAround_some, lawful.nested inside innermost] at other
    cases other

/-- Where the counts hold, the finished loops were counted right. -/
theorem finished_rounds (lawful : F.Lawful) {c : Context} (sound : Sound F c) {s : State} (reached : Reached .exact F s)
    {l : LoopId} (entered : Entered F s.place l) {scope : Option LoopId}
    (right : isAround F l scope = true ∨ CountHolds F c l)
    (left : isAround F l scope = false → F.contains l s.place.block = false) :
    (finished c scope s.assignment).rounds l = s.assignment.rounds l := by
  cases around : isAround F l scope with
  | true => exact finished_of_isAround (sound.forest.symm ▸ around)
  | false =>
    rw [finished_of_tripCount (sound.forest.symm ▸ around)]
    cases found : (Query.tripCount l c).1 with
    | none => rfl
    | some count =>
      obtain ⟨x, loop, dominates⟩ := entered
      have holds := right.resolve_left (by simp [around])
      exact (rounds_of_left lawful (holds count found) loop reached dominates (left around)).symm

/-- A value is what is seen of it from the innermost loop around control, if each loop in its evolution that
    is finished there is only ever left after as many back edges as were counted. That holds of a loop that can
    be left at one block only, with a test that does not wrap around. -/
theorem atScope_eq_value {f : Function} (wf : f.WellFormed) (questions : List Question) :
    (∀ v s scope e, Reached .exact (.ofFunction f) s → f.Available s.place v →
      (Forest.ofFunction f).innermost? s.place.block = scope → (Query.evolution v (.asked f questions)).1 = e →
      e.Over (fun l => isAround (.ofFunction f) l scope = true ∨
        CountHolds (.ofFunction f) (.asked f (questions ++ [.evolution v, .atScope scope e])) l) (fun _ => True) →
      s.values v = (Query.atScope scope e (.asked f (questions ++ [.evolution v]))).1.value s.assignment) ∧
    ∀ l, LeftByTest (.ofFunction f) (.asked f questions) l → CountHolds (.ofFunction f) (.asked f questions) l := by
  have lawful := Forest.lawful_ofFunction wf
  refine ⟨?_, fun l left => left.countHolds lawful (sound_asked wf questions)⟩
  rintro v s scope e reached available rfl rfl right
  obtain ⟨_, describes⟩ := Query.answers_evolution lawful v _ (sound_asked wf questions)
  have uses := (describes.denotes s reached.modular available).uses
  have value := (atScope_ensures ((Forest.ofFunction f).innermost? s.place.block)
    (Query.evolution v (.asked f questions)).1 (.asked f (questions ++ [.evolution v]))).2 _ (.refl _) s.assignment
  rw [value, ← describes.value reached.modular available]
  refine Expr.value_congr (fun l part => ?_) (fun _ _ => ?_) (uses.and right)
  · have sound := sound_asked wf (questions ++ [.evolution v, .atScope ((Forest.ofFunction f).innermost? s.place.block)
      (Query.evolution v (.asked f questions)).1])
    rw [Context.asked_append] at sound part ⊢
    exact (finished_rounds lawful sound reached part.1 part.2 (not_contains_of_innermost? lawful)).symm
  · rfl

/-- The loop of columns is finished at the end of a row, and the one of rows is not. -/
theorem grid_seen : ∃ s e, Reached .exact (.ofFunction grid) s ∧ grid.Available s.place (.result ⟨3, 2⟩) ∧
    (Forest.ofFunction grid).innermost? s.place.block = some 0 ∧
    (Query.evolution (.result ⟨3, 2⟩) (.asked grid [])).1 = e ∧
    LeftByTest (.ofFunction grid) (.asked grid [.evolution (.result ⟨3, 2⟩), .atScope (some 0) e]) 1 ∧
    (Query.atScope (some 0) e (.asked grid [.evolution (.result ⟨3, 2⟩)])).1 = .recur 0 (.const 3) (.const 10) ∧
    s.values (.result ⟨3, 2⟩) = 13 ∧ (Expr.recur 0 (.const 3) (.const 10)).value s.assignment = 13 := by
  have start : Reached .exact (.ofFunction grid) (initial grid) := reached_initial .exact (by decide +kernel)
  have reached := reached_run grid_wellFormed start 73
  have place : (run .exact (.ofFunction grid) 73 (initial grid)).place = ⟨4, 0⟩ := by decide +kernel
  have value : (run .exact (.ofFunction grid) 73 (initial grid)).values (.result ⟨3, 2⟩) = 13 := by decide +kernel
  generalize run .exact (.ofFunction grid) 73 (initial grid) = s at reached place value
  have available : grid.Available s.place (.result ⟨3, 2⟩) := by
    rw [place]
    exact .inr ⟨by decide, by decide +kernel⟩
  have scope : (Forest.ofFunction grid).innermost? s.place.block = some 0 := by
    rw [place]
    decide +kernel
  have evolution : (Query.evolution (.result ⟨3, 2⟩) (.asked grid [])).1 =
      .recur 1 (.recur 0 (.const 0) (.const 10)) (.const 1) := by decide +kernel
  have seen : (Query.atScope (some 0) (.recur 1 (.recur 0 (.const 0) (.const 10)) (.const 1))
      (.asked grid [.evolution (.result ⟨3, 2⟩)])).1 = .recur 0 (.const 3) (.const 10) := by decide +kernel
  have left : LeftByTest (.ofFunction grid) (.asked grid [.evolution (.result ⟨3, 2⟩),
      .atScope (some 0) (.recur 1 (.recur 0 (.const 0) (.const 10)) (.const 1))]) 1 := by
    refine ⟨((Forest.ofFunction grid).loop? 1).get (by decide +kernel), 3, (Option.some_get _).symm,
      by decide +kernel, fun count t counted test => ?_⟩
    rw [show (Query.tripCount 1 _).1 = some ⟨3, false⟩ by decide +kernel] at counted
    rw [show (Query.exitTest? 1 3 _).1 = some ⟨.lt, 1, 1, 4⟩ by decide +kernel] at test
    cases counted
    cases test
    exact ⟨by decide, by decide⟩
  have holds := (atScope_eq_value grid_wellFormed [.evolution (.result ⟨3, 2⟩),
    .atScope (some 0) (.recur 1 (.recur 0 (.const 0) (.const 10)) (.const 1))]).2 1 left
  have around : isAround (.ofFunction grid) 0 (some 0) = true := by decide +kernel
  have same := (atScope_eq_value grid_wellFormed []).1 _ s _ _ reached available scope evolution
    ⟨.inr holds, ⟨.inl around, trivial, trivial⟩, trivial⟩
  refine ⟨s, _, reached, available, scope, evolution, left, seen, value, ?_⟩
  rw [← seen, ← value]
  exact same.symm

/-- The loop is left as soon as an element is found. -/
def find : Function where
  name := "find"
  receiver := none
  types := []
  params := [⟨"a", .slice (.basic .int), 1⟩, ⟨"x", .basic .int, 2⟩]
  free := []
  globals := []
  constants := [⟨.int 0, .basic .int⟩, ⟨.int 1, .basic .int⟩, ⟨.int 10, .basic .int⟩]
  blocks := [
    ⟨"entry", [], [1], [⟨.jump, none, 0⟩]⟩,
    ⟨"for.loop", [0, 3], [2, 4], [
      ⟨.phi [.const 0, .result ⟨3, 0⟩] "i", some ("t0", .basic .int), 0⟩,
      ⟨.binary (.compare .lt) (.result ⟨1, 0⟩) (.const 2), some ("t1", .basic .bool), 0⟩,
      ⟨.branch (.result ⟨1, 1⟩), none, 0⟩]⟩,
    ⟨"for.body", [1], [4, 3], [
      ⟨.indexAddress (.param 0) (.result ⟨1, 0⟩), some ("t2", .pointer (.basic .int)), 10⟩,
      ⟨.load (.result ⟨2, 0⟩), some ("t3", .basic .int), 0⟩,
      ⟨.binary (.compare .eq) (.result ⟨2, 1⟩) (.param 1), some ("t4", .basic .bool), 0⟩,
      ⟨.branch (.result ⟨2, 2⟩), none, 0⟩]⟩,
    ⟨"if.done", [2], [1], [
      ⟨.binary .add (.result ⟨1, 0⟩) (.const 1), some ("t5", .basic .int), 0⟩,
      ⟨.jump, none, 0⟩]⟩,
    ⟨"for.done", [1, 2], [], [⟨.leave [.result ⟨1, 0⟩], none, 0⟩]⟩]
  recover := none

/-- The loop may be left before it took as many back edges as were counted. -/
theorem find_leaves_early : find.WellFormed ∧ ∃ s, Reached .exact (.ofFunction find) s ∧
    find.Available s.place (.result ⟨1, 0⟩) ∧ (Forest.ofFunction find).innermost? s.place.block = none ∧
    s.values (.result ⟨1, 0⟩) = 0 ∧ (Query.evolution (.result ⟨1, 0⟩) (.asked find [])).1 = .recur 0 (.const 0) (.const 1) ∧
    (Query.atScope none (.recur 0 (.const 0) (.const 1)) (Query.evolution (.result ⟨1, 0⟩) (.asked find [])).2).1 =
      .const 10 := by
  have wf : find.WellFormed :=
    ⟨by decide +kernel, by decide +kernel, by decide +kernel, by decide +kernel, by decide +kernel⟩
  have start : Reached .exact (.ofFunction find) (initial find) := reached_initial .exact (by decide +kernel)
  refine ⟨wf, _, reached_run wf start 11, .inr ⟨by decide +kernel, by decide +kernel⟩, ?_⟩
  exact ⟨by decide +kernel, by decide +kernel, by decide +kernel, by decide +kernel⟩

end LoopConflict.Evolution
