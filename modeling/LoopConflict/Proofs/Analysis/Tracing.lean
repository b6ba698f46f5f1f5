import LoopConflict.Proofs.Analysis.Coverage
import LoopConflict.Proofs.Analysis.Mirroring
import LoopConflict.Proofs.Evolution.History
import LoopConflict.Report

/-!
What a trace changes. An analysis that tells what it finds out asks for more evolutions on the way, so that unknown
values get other numbers. Loops, variables and the places of accesses are always the same. The results are the same
up to numbers, with the same messages and diagnostics, if the terms of sums and products keep their order with these
numbers (`tracing_only_renumbers`); else a described access may be dropped with a trace (`shifted_traced_loses`).
-/
namespace LoopConflict

open Loop (Forest LoopId)
open Program (Function Place Value)
open Evolution (Expr Context Query Frame)
open Access

variable {F : Forest} {number : Value → Nat}

/-! ### The whole analysis -/

section

variable {f : Function} {o : Options}

theorem analyze_eq_analyzeAll (f : Function) (o : Options) :
    (analyze f o).loops = (Analysis.analyzeAll o (.ofFunction f) { context := .ofForest (.ofFunction f) }).1 ∧
      (analyze f o).context =
        (Analysis.analyzeAll o (.ofFunction f) { context := .ofForest (.ofFunction f) }).2.context := by
  rw [Analysis.analyzeAll_eq]
  exact Prod.mk.inj (analyze_eq f o)

variable (wf : f.WellFormed)
include wf

/-- The analysis is mirrored in every context that remembers the evolutions from the start. -/
theorem analyze_mirrors (o : Options) {E : Value → Expr} (evolves : Evolution.Evolves (.ofFunction f) number E)
    (known : List Value) :
    Analysis.Mirrors (Frame.recalling (.ofFunction f) number E known) { context := .ofForest (.ofFunction f) }
      (Analysis.analyzeAll o (.ofFunction f)) (Analysis.analyzeAll o.silent (.ofFunction f)) (List.map (·.renumber number))
      fun c results => RecordsAll c (results.flatMap LoopResult.exprs) := by
  have finds := Frame.finds_recalling (Forest.lawful_ofFunction wf) evolves known
  refine Analysis.mirrors_analyzeAll finds ?_ o
  exact Evolution.faithful_ofForest _

/-- All expressions in the results are recorded. -/
theorem analyze_recorded (o : Options) :
    (analyze f o).context.Filed (.ofFunction f) True ∧
      RecordsAll (analyze f o).context ((analyze f o).loops.flatMap LoopResult.exprs) := by
  obtain ⟨E, evolves⟩ := Evolution.exists_evolves (Forest.lawful_ofFunction wf) fun _ => 0
  have mirrors := analyze_mirrors wf o evolves []
  obtain ⟨loops, context⟩ := analyze_eq_analyzeAll f o
  rw [loops, context]
  exact ⟨mirrors.holds.filed, mirrors.answer⟩

/-- With numbers that keep the order of terms in both, the results with and without a trace are the same. -/
theorem analyze_renumber {o' : Options} (silent : o'.silent = o.silent) (keeps : (analyze f o).context.table.Keeps number)
    (keeps' : (analyze f o').context.table.Keeps number) :
    (analyze f o').loops.map (·.renumber number) = (analyze f o).loops.map (·.renumber number) := by
  obtain ⟨E, evolves⟩ := Evolution.exists_evolves (Forest.lawful_ofFunction wf) number
  let known := (analyze f o).context.memo.map (·.1) ++ (analyze f o').context.memo.map (·.1)
  -- Both are mirrored by one and the same analysis, which remembers what either of them asks for.
  obtain ⟨c, isRef⟩ := (Frame.recalling (.ofFunction f) number E known).inhabited
  have mirrored : ∀ o, (analyze f o).context.table.Keeps number →
      (∀ v, ((analyze f o).context.memo.lookup v).isSome = true → v ∈ known) →
      (Analysis.analyzeAll o.silent (.ofFunction f) { context := c }).1 = (analyze f o).loops.map (·.renumber number) := by
    intro o keeps isKnown
    have mirrors := analyze_mirrors wf o evolves known
    obtain ⟨loops, context⟩ := analyze_eq_analyzeAll f o
    rw [context] at keeps isKnown
    rw [loops]
    exact (mirrors.mirrored ⟨keeps, isKnown⟩ { context := c } isRef rfl).2.2
  have remembered : ∀ (c : Context) v, (c.memo.lookup v).isSome = true → v ∈ c.memo.map (·.1) := by
    intro c v isSome
    obtain ⟨e, found⟩ := Option.isSome_iff_exists.mp isSome
    obtain ⟨before, after, split, _⟩ := List.lookup_eq_some_iff.mp found
    simp [split]
  rw [← mirrored o keeps fun v isSome => List.mem_append_left _ (remembered _ v isSome),
    ← mirrored o' keeps' fun v isSome => List.mem_append_right _ (remembered _ v isSome), silent]

/-- If the numbers of one analysis keep the order of terms in the other one, its results are those of the other one
    with its numbers. -/
theorem analyze_eq_renumber {o' : Options} (silent : o'.silent = o.silent)
    (keeps : (analyze f o).context.table.Keeps (analyze f o').context.numberOf) :
    (analyze f o').loops = (analyze f o).loops.map (·.renumber (analyze f o').context.numberOf) := by
  obtain ⟨filed, recorded⟩ := analyze_recorded wf o'
  rw [← analyze_renumber wf silent keeps filed.keeps_own]
  refine (map_eq_self fun r member => LoopResult.renumber_eq_self fun e inside => filed.renumber_own ?_).symm
  exact recorded e (List.mem_flatMap.mpr ⟨r, member, inside⟩)

/-- Then errors and diagnostics have the same texts. -/
theorem analyze_texts {o' : Options} (silent : o'.silent = o.silent)
    (keeps : (analyze f o).context.table.Keeps (analyze f o').context.numberOf) :
    ((analyze f o').loops.map fun r => r.dropped.map (·.message (analyze f o').context)) =
        ((analyze f o).loops.map fun r => r.dropped.map (·.message (analyze f o).context)) ∧
      diagnosticsOf (analyze f o') = diagnosticsOf (analyze f o) := by
  obtain ⟨filed, recorded⟩ := analyze_recorded wf o
  obtain ⟨filed', recorded'⟩ := analyze_recorded wf o'
  have same := analyze_eq_renumber wf silent keeps
  rw [same] at recorded'
  constructor
  · rw [same, List.map_map]
    refine List.map_congr_left fun r member => ?_
    exact r.messages_renumber filed filed' (recorded.of_flatMap member) (recorded'.of_flatMap (List.mem_map_of_mem member))
  · unfold diagnosticsOf
    rw [same, List.flatMap_map, List.filterMap_flatMap, List.filterMap_flatMap]
    refine List.flatMap_congr fun r member => ?_
    rw [LoopResult.renumber, List.filterMap_map]
    refine List.filterMap_congr fun p isPair => ?_
    have base := r.baseName_renumber filed filed' (recorded.of_flatMap member)
      (recorded'.of_flatMap (List.mem_map_of_mem member)) isPair
    dsimp only [Function.comp_apply, Pair.renumber]
    rw [base, FunctionResult.function, FunctionResult.function, analyze_function, analyze_function]
    rfl

end

/-! ### What is always the same -/

/-- Two results of a loop have the same variable and the same loads and stores, each of them described or dropped. -/
structure LoopResult.SameScope (r r' : LoopResult) : Prop where
  loop : r'.loop = r.loop
  iv : r'.iv = r.iv
  places : r'.places.Perm r.places
  kinds : ∀ a ∈ r.accesses, ∀ a' ∈ r'.accesses, a'.place = a.place → a'.isStore = a.isStore

theorem Splits.at {f : Function} {places : List Place} {accesses : List MemoryAccess} {dropped : List Dropped}
    (splits : Splits f places accesses dropped) : ∀ a ∈ accesses, a.At f a.place := by
  induction splits with
  | nil => exact List.forall_mem_nil _
  | access here _ ih => exact List.forall_mem_cons.mpr ⟨here.place ▸ here, ih⟩
  | dropped _ _ ih => exact ih

theorem LoopResult.Complete.sameScope {ivs : Variables} {r r' : LoopResult} (complete : r.Complete F ivs)
    (complete' : r'.Complete F ivs) (loop : r'.loop = r.loop) : r.SameScope r' := by
  have iv : r'.iv = r.iv := by rw [complete.iv, complete'.iv, loop]
  have places := complete'.accesses.perm
  rw [iv, loop] at places
  refine ⟨loop, iv, places.trans complete.accesses.perm.symm, fun a member a' member' same => ?_⟩
  have here := (complete.accesses.at a member).isStore
  have there := (complete'.accesses.at a' member').isStore
  rw [same] at there
  exact Bool.eq_iff_iff.mpr (there.trans here.symm)

theorem sameScope_of_complete {ivs : Variables} {ids : List LoopId} {loops loops' : List LoopResult}
    (each : List.Forall₂ (fun l r => r.loop = l ∧ r.Complete F ivs) ids loops)
    (each' : List.Forall₂ (fun l r => r.loop = l ∧ r.Complete F ivs) ids loops') :
    List.Forall₂ LoopResult.SameScope loops loops' := by
  induction each generalizing loops' with
  | nil =>
    cases each'
    exact .nil
  | cons here _ ih =>
    cases each' with
    | cons there rest => exact .cons (here.2.sameScope there.2 (there.1.trans here.1.symm)) (ih rest)

/-- Whatever the options are, the loops have the same variables, loads and stores. -/
theorem analyze_sameScope (f : Function) (o o' : Options) :
    List.Forall₂ LoopResult.SameScope (analyze f o).loops (analyze f o').loops :=
  sameScope_of_complete (analyze_each f o) (analyze_each f o')

/-! ### What only gets other numbers -/

/-- The loops have the same variables, loads and stores. With options that differ in the trace only, if the numbers of
    one analysis keep the order of terms in the other one, its results are those of the other one with its numbers:
    accesses, bases, groups and pairs with the same models and verdicts, and errors with the same messages. -/
theorem tracing_only_renumbers (f : Function) (o o' : Options) :
    List.Forall₂ LoopResult.SameScope (analyze f o).loops (analyze f o').loops ∧
      (f.WellFormed → o'.silent = o.silent →
        (∀ entry ∈ (analyze f o).context.table, (entry.expr.renumber (analyze f o').context.numberOf).InOrder) →
        (analyze f o').loops = (analyze f o).loops.map (·.renumber (analyze f o').context.numberOf) ∧
          ((analyze f o').loops.map fun r => r.dropped.map (·.message (analyze f o').context)) =
            ((analyze f o).loops.map fun r => r.dropped.map (·.message (analyze f o).context)) ∧
          diagnosticsOf (analyze f o') = diagnosticsOf (analyze f o)) := by
  refine ⟨analyze_sameScope f o o', fun wf silent inOrder => ?_⟩
  have keeps : (analyze f o).context.table.Keeps (analyze f o').context.numberOf := by
    intro e holds
    obtain ⟨entry, member, rfl⟩ := holds.mem
    exact inOrder entry member
  exact ⟨analyze_eq_renumber wf silent keeps, analyze_texts wf silent keeps⟩

/-- Elements of a slice are copied to their neighbours, and stored at indices that are read from another slice. -/
def gather : Function where
  name := "gather"
  receiver := none
  types := []
  params := [⟨"a", .slice (.basic .int), 0⟩, ⟨"b", .slice (.basic .int), 0⟩, ⟨"x", .basic .int, 0⟩]
  free := []
  globals := []
  constants := [⟨.int 0, .basic .int⟩, ⟨.int 1, .basic .int⟩, ⟨.int 9, .basic .int⟩]
  blocks := [
    ⟨"entry", [], [1], [⟨.jump, none, 0⟩]⟩,
    ⟨"for.loop", [0, 2], [2, 3], [
      ⟨.phi [.const 0, .result ⟨2, 7⟩] "i", some ("t0", .basic .int), 0⟩,
      ⟨.binary (.compare .lt) (.result ⟨1, 0⟩) (.const 2), some ("t1", .basic .bool), 0⟩,
      ⟨.branch (.result ⟨1, 1⟩), none, 0⟩]⟩,
    ⟨"for.body", [1], [1], [
      ⟨.indexAddress (.param 1) (.result ⟨1, 0⟩), some ("t2", .pointer (.basic .int)), 0⟩,
      ⟨.load (.result ⟨2, 0⟩), some ("t3", .basic .int), 0⟩,
      ⟨.binary .add (.result ⟨2, 1⟩) (.param 2), some ("t4", .basic .int), 0⟩,
      ⟨.indexAddress (.param 0) (.result ⟨2, 2⟩), some ("t5", .pointer (.basic .int)), 0⟩,
      ⟨.store (.result ⟨2, 3⟩) (.result ⟨1, 0⟩), none, 0⟩,
      ⟨.indexAddress (.param 0) (.result ⟨1, 0⟩), some ("t6", .pointer (.basic .int)), 0⟩,
      ⟨.load (.result ⟨2, 5⟩), some ("t7", .basic .int), 0⟩,
      ⟨.binary .add (.result ⟨1, 0⟩) (.const 1), some ("t8", .basic .int), 0⟩,
      ⟨.indexAddress (.param 0) (.result ⟨2, 7⟩), some ("t9", .pointer (.basic .int)), 0⟩,
      ⟨.store (.result ⟨2, 8⟩) (.result ⟨2, 6⟩), none, 0⟩,
      ⟨.jump, none, 0⟩]⟩,
    ⟨"for.done", [1], [], [⟨.leave [], none, 0⟩]⟩]
  recover := none

theorem gather_wellFormed : gather.WellFormed :=
  ⟨by decide +kernel, by decide +kernel, by decide +kernel, by decide +kernel, by decide +kernel⟩

/-- The slice `a` has another number with a trace, and the results are the same up to such numbers. -/
theorem gather_traced : gather.WellFormed ∧
    (analyze gather {}).context.numberOf (.param 0) = 5 ∧
    (analyze gather { trace := true }).context.numberOf (.param 0) = 8 ∧
    (analyze gather {}).loops.map (fun r => (r.accesses.length, r.dropped.length, r.pairs.length)) = [(3, 1, 1)] ∧
    (analyze gather { trace := true }).loops =
      (analyze gather {}).loops.map (·.renumber (analyze gather { trace := true }).context.numberOf) ∧
    diagnosticsOf (analyze gather { trace := true }) = diagnosticsOf (analyze gather {}) := by
  have inOrder : ∀ entry ∈ (analyze gather {}).context.table,
      (entry.expr.renumber (analyze gather { trace := true }).context.numberOf).InOrder := by decide +kernel
  have silent : ({ trace := true } : Options).silent = ({} : Options).silent := rfl
  obtain ⟨loops, _, diagnostics⟩ := (tracing_only_renumbers gather {} { trace := true }).2 gather_wellFormed silent inOrder
  exact ⟨gather_wellFormed, by decide +kernel, by decide +kernel, by decide +kernel, loops, diagnostics⟩

/-- The loops before leave `x` and `y` increased by their numbers of iterations, and the last one uses both in an index
    from which `x` and `y` are subtracted again. The first one reads the element at `y`. -/
def shifted : Function where
  name := "shifted"
  receiver := none
  types := []
  params := [⟨"a", .slice (.basic .int), 1⟩, ⟨"b", .slice (.basic .int), 2⟩, ⟨"x", .basic .int, 3⟩,
    ⟨"y", .basic .int, 4⟩, ⟨"n", .basic .int, 5⟩]
  free := []
  globals := []
  constants := [⟨.int 0, .basic .int⟩, ⟨.int 1, .basic .int⟩, ⟨.int 0, .basic .int⟩]
  blocks := [
    ⟨"entry", [], [1], [⟨.jump, none, 0⟩]⟩,
    ⟨"for.loop", [0, 1], [1, 2], [
      ⟨.phi [.const 0, .result ⟨1, 5⟩] "i", some ("t0", .basic .int), 0⟩,
      ⟨.phi [.param 2, .result ⟨1, 6⟩] "p", some ("t1", .basic .int), 0⟩,
      ⟨.phi [.const 0, .result ⟨1, 0⟩] "last", some ("t2", .basic .int), 0⟩,
      ⟨.indexAddress (.param 1) (.param 3), some ("t3", .pointer (.basic .int)), 10⟩,
      ⟨.load (.result ⟨1, 3⟩), some ("t4", .basic .int), 11⟩,
      ⟨.binary .add (.result ⟨1, 0⟩) (.const 1), some ("t5", .basic .int), 0⟩,
      ⟨.binary .add (.result ⟨1, 1⟩) (.const 1), some ("t6", .basic .int), 0⟩,
      ⟨.binary (.compare .lt) (.result ⟨1, 4⟩) (.param 4), some ("t7", .basic .bool), 0⟩,
      ⟨.branch (.result ⟨1, 7⟩), none, 0⟩]⟩,
    ⟨"for.loop", [1, 2], [2, 3], [
      ⟨.phi [.const 2, .result ⟨2, 2⟩] "j", some ("t8", .basic .int), 0⟩,
      ⟨.phi [.param 3, .result ⟨2, 3⟩] "q", some ("t9", .basic .int), 0⟩,
      ⟨.binary .add (.result ⟨2, 0⟩) (.const 1), some ("t10", .basic .int), 0⟩,
      ⟨.binary .add (.result ⟨2, 1⟩) (.const 1), some ("t11", .basic .int), 0⟩,
      ⟨.binary (.compare .lt) (.result ⟨2, 1⟩) (.param 4), some ("t12", .basic .bool), 0⟩,
      ⟨.branch (.result ⟨2, 4⟩), none, 0⟩]⟩,
    ⟨"for.loop", [2, 3], [3, 4], [
      ⟨.phi [.result ⟨1, 2⟩, .result ⟨3, 8⟩] "k", some ("t13", .basic .int), 0⟩,
      ⟨.binary .add (.result ⟨3, 0⟩) (.result ⟨1, 1⟩), some ("t14", .basic .int), 0⟩,
      ⟨.binary .add (.result ⟨3, 1⟩) (.result ⟨2, 1⟩), some ("t15", .basic .int), 0⟩,
      ⟨.binary .sub (.result ⟨3, 2⟩) (.param 2), some ("t16", .basic .int), 0⟩,
      ⟨.binary .sub (.result ⟨3, 3⟩) (.param 3), some ("t17", .basic .int), 0⟩,
      ⟨.indexAddress (.param 0) (.result ⟨3, 4⟩), some ("t18", .pointer (.basic .int)), 12⟩,
      ⟨.load (.result ⟨3, 5⟩), some ("t19", .basic .int), 13⟩,
      ⟨.store (.result ⟨3, 5⟩) (.const 1), none, 14⟩,
      ⟨.binary .add (.result ⟨3, 0⟩) (.const 1), some ("t20", .basic .int), 0⟩,
      ⟨.binary (.compare .lt) (.result ⟨3, 8⟩) (.param 4), some ("t21", .basic .bool), 0⟩,
      ⟨.branch (.result ⟨3, 9⟩), none, 0⟩]⟩,
    ⟨"done", [3], [], [⟨.leave [], none, 0⟩]⟩]
  recover := none

/-- The terms of one sum change places, and with a trace the load and the store of the last loop are dropped. -/
theorem shifted_traced_loses : shifted.WellFormed ∧
    (analyze shifted {}).loops.map (fun r => (r.accesses.length, r.dropped.length, r.pairs.length)) =
      [(0, 1, 0), (0, 0, 0), (2, 0, 1)] ∧
    (analyze shifted { trace := true }).loops.map (fun r => (r.accesses.length, r.dropped.length, r.pairs.length)) =
      [(0, 1, 0), (0, 0, 0), (0, 2, 0)] :=
  ⟨⟨by decide +kernel, by decide +kernel, by decide +kernel, by decide +kernel, by decide +kernel⟩, by decide +kernel,
    by decide +kernel⟩

end LoopConflict
