import LoopConflict.Proofs.Access.Mirroring
import LoopConflict.Proofs.Analysis.Pairs

/-!
An analysis in two contexts. Each of its steps is mirrored by the step without a trace and with other numbers for
unknown values, and gives the same result up to these numbers (`LoopResult.renumber`). To tell what was found out is no
more than to ask for some evolutions whose answers are not used (`mirrors_tellValue`).
-/
namespace LoopConflict

open Loop (Forest LoopId)
open Program (Function Place Value)
open Evolution (Expr Context Query Frame mirrors_pure mirrors_get)
open Access

variable {F : Forest} {number : Value → Nat}

/-! ### Results with other numbers -/

def Dropped.renumber (number : Value → Nat) (d : Dropped) : Dropped :=
  { d with error := d.error.renumber number }

def Pair.renumber (number : Value → Nat) (p : Pair) : Pair :=
  { p with a := p.a.renumber number, b := p.b.renumber number, base := p.base.map (·.renumber number) }

/-- The result with other numbers for unknown values. Models and verdicts have none. -/
def LoopResult.renumber (number : Value → Nat) (r : LoopResult) : LoopResult where
  loop := r.loop
  iv := r.iv.map (·.renumber number)
  accesses := r.accesses.map (·.renumber number)
  dropped := r.dropped.map (·.renumber number)
  groups := r.groups.map (·.renumber number)
  pairs := r.pairs.map (·.renumber number)
  model := r.model
  errors := r.errors.map (·.renumber number)

def Dropped.exprs (d : Dropped) : List Expr :=
  d.error.exprs

def Pair.exprs (p : Pair) : List Expr :=
  p.base.toList ++ accessExprs (p.a, p.b)

/-- All expressions in the result. -/
def LoopResult.exprs (r : LoopResult) : List Expr :=
  r.iv.toList.map (·.recurrence) ++ r.accesses.flatMap MemoryAccess.exprs ++ r.dropped.flatMap Dropped.exprs ++
    r.groups.flatMap Group.exprs ++ r.pairs.flatMap Pair.exprs ++ r.errors.flatMap ArityMismatch.exprs

theorem Dropped.renumber_eq_self {d : Dropped} (own : Numbered number d.exprs) : d.renumber number = d := by
  rw [renumber, AffineError.renumber_eq_self own]

theorem Pair.renumber_eq_self {p : Pair} (own : Numbered number p.exprs) : p.renumber number = p := by
  obtain ⟨isBase, isAccesses⟩ := each_append.mp own
  obtain ⟨isA, isB⟩ := each_append.mp isAccesses
  rw [renumber, MemoryAccess.renumber_eq_self isA, MemoryAccess.renumber_eq_self isB, base_renumber_eq_self isBase]

/-- With the numbers that its unknown values have the result is the same. -/
theorem LoopResult.renumber_eq_self {r : LoopResult} (own : Numbered number r.exprs) : r.renumber number = r := by
  simp only [exprs, each_append] at own
  obtain ⟨⟨⟨⟨⟨isIv, isAccesses⟩, isDropped⟩, isGroups⟩, isPairs⟩, isErrors⟩ := own
  have iv : r.iv.map (·.renumber number) = r.iv := by
    cases same : r.iv with
    | none => rfl
    | some iv => rw [Option.map_some, InductionVariable.renumber_eq_self (isIv _ (by simp [same]))]
  have accesses : r.accesses.map (·.renumber number) = r.accesses :=
    map_eq_self fun a member => MemoryAccess.renumber_eq_self (isAccesses.of_flatMap member)
  have dropped : r.dropped.map (·.renumber number) = r.dropped :=
    map_eq_self fun d member => Dropped.renumber_eq_self (isDropped.of_flatMap member)
  have groups : r.groups.map (·.renumber number) = r.groups :=
    map_eq_self fun g member => Group.renumber_eq_self (isGroups.of_flatMap member)
  have pairs : r.pairs.map (·.renumber number) = r.pairs :=
    map_eq_self fun p member => Pair.renumber_eq_self (isPairs.of_flatMap member)
  have errors : r.errors.map (·.renumber number) = r.errors :=
    map_eq_self fun e member => ArityMismatch.renumber_eq_self (isErrors.of_flatMap member)
  rw [renumber, iv, accesses, dropped, groups, pairs, errors]

theorem Dropped.message_renumber {c c' : Context} (filed : c.Filed F True) (filed' : c'.Filed F True) {d : Dropped}
    (recorded : RecordsAll c d.exprs) (recorded' : RecordsAll c' (d.renumber number).exprs) :
    (d.renumber number).message c' = d.message c := by
  unfold message
  dsimp only [renumber]
  rw [AffineError.message_renumber filed filed' recorded recorded', Context.function, Context.function, filed.forest,
    filed'.forest]

namespace LoopResult

variable {c c' : Context} (filed : c.Filed F True) (filed' : c'.Filed F True) (r : LoopResult)
  (recorded : RecordsAll c r.exprs) (recorded' : RecordsAll c' (r.renumber number).exprs)
include filed filed' recorded recorded'

theorem messages_renumber : ((r.renumber number).dropped.map (·.message c')) = r.dropped.map (·.message c) := by
  simp only [exprs, each_append] at recorded recorded'
  rw [renumber, List.map_map]
  refine List.map_congr_left fun d member => ?_
  exact Dropped.message_renumber filed filed' (recorded.1.1.1.2.of_flatMap member)
    (recorded'.1.1.1.2.of_flatMap (List.mem_map_of_mem member))

theorem baseName_renumber {p : Pair} (member : p ∈ r.pairs) :
    baseName c' (p.base.map (·.renumber number)) = baseName c p.base := by
  simp only [exprs, each_append] at recorded recorded'
  have inside := recorded.1.2.of_flatMap member
  have inside' := recorded'.1.2.of_flatMap (List.mem_map_of_mem member)
  cases base : p.base with
  | none => rfl
  | some e =>
    refine Evolution.text_renumber filed filed' (inside e ?_) (inside' (e.renumber number) ?_)
    · simp [Pair.exprs, base]
    · simp [Pair.exprs, Pair.renumber, base]

end LoopResult

/-- The options without a trace. -/
def Options.silent (o : Options) : Options :=
  { o with trace := false }

namespace Analysis

/-! ### Steps of an analysis -/

section

variable {α α' : Type} {frame : Frame F number} {s : State} {r : α → α'} {P : Context → α → Prop}

/-- Steps of an analysis and their mirror. The loads that were seen are the same; what was told does not count. -/
abbrev Mirrors (frame : Frame F number) (s : State) (m : Analyze α) (m' : Analyze α') (r : α → α')
    (P : Context → α → Prop) : Prop :=
  Evolution.Mirrors frame State.context (fun s s' => s'.loads = s.loads) s m m' r P

theorem mirrors_ask {q : Query α} {q' : Query α'} (mirrors : Query.Mirrors frame s.context q q' r P) :
    Mirrors frame s (ask q) (ask q') r P := by
  refine ⟨mirrors.holds, mirrors.before, mirrors.answer, fun fits s' isRef same => ?_⟩
  obtain ⟨isRef', _, answer⟩ := mirrors.mirrored fits s'.context isRef trivial
  exact ⟨isRef', same, answer⟩

variable (holds : frame.holds s.context)
include holds

theorem mirrors_state {k : State → Analyze α} {k' : State → Analyze α'}
    (rest : ∀ s', s.context.forest = F → s'.context.forest = F → s'.loads = s.loads → Mirrors frame s (k s) (k' s') r P) :
    Mirrors frame s (get >>= k) (get >>= k') r P := by
  obtain ⟨c, isRef⟩ := frame.inhabited
  refine mirrors_get ⟨{ s with context := c }, isRef, rfl⟩ fun s' isRef same => ?_
  exact rest s' (frame.filed holds).forest (frame.forest isRef) same

theorem mirrors_forest {k : Forest → Analyze α} {k' : Forest → Analyze α'} (rest : Mirrors frame s (k F) (k' F) r P) :
    Mirrors frame s (forest >>= k) (forest >>= k') r P := by
  change Mirrors frame s (get >>= fun s => k s.context.forest) (get >>= fun s => k' s.context.forest) r P
  refine mirrors_state holds fun s' here there _ => ?_
  rw [here, there]
  exact rest

/-- A line of the trace has no mirror. -/
theorem mirrors_tell (o : Options) (l : LoopId) (line line' : Context → String) :
    Mirrors frame s (tell o l line) (tell o.silent l line') id fun _ _ => True := by
  unfold tell
  dsimp only [Options.silent]
  cases o.trace with
  | false => exact mirrors_pure holds rfl trivial
  | true => exact ⟨holds, .refl _, trivial, fun _ s' isRef same => ⟨isRef, same, rfl⟩⟩

theorem mirrors_forget :
    Mirrors frame s (modify fun s => { s with loads := [] }) (modify fun s => { s with loads := [] }) id fun _ _ => True :=
  ⟨holds, .refl _, trivial, fun _ _ isRef _ => ⟨isRef, rfl, rfl⟩⟩

theorem mirrors_baseValue (l : LoopId) (v : Value) :
    Mirrors frame s (baseValue l v) (baseValue l v) id fun _ _ => True := by
  refine mirrors_forest holds ?_
  cases stableLoad? F l v with
  | none => exact mirrors_pure holds rfl trivial
  | some key =>
    refine mirrors_state holds fun s' _ _ same => ?_
    rw [same]
    cases s.loads.lookup key with
    | some first => exact mirrors_pure holds rfl trivial
    | none => exact ⟨holds, .refl _, trivial, fun _ s' isRef same => ⟨isRef, congrArg (List.cons (key, v)) same, rfl⟩⟩

end

section

variable {frame : Frame F number} {s : State} (finds : frame.Finds) (holds : frame.holds s.context)
include finds holds

/-- To tell the evolution of a value it is asked for, but the answer is not used. -/
theorem mirrors_tellValue (o : Options) (l : LoopId) (p : Place) :
    Mirrors frame s (tellValue o l p) (tellValue o.silent l p) id fun _ _ => True := by
  refine mirrors_state holds fun s' here there _ => ?_
  rw [Context.function, Context.function, here, there]
  dsimp only [Options.silent]
  cases (F.function.instruction? p).bind (·.result) with
  | none => exact mirrors_pure holds rfl trivial
  | some result =>
    simp only [Bool.false_and, Bool.false_eq_true, if_false]
    split
    · have asked := mirrors_ask (finds (.result p) s.context holds)
      have unused : Mirrors frame s (ask (Query.evolution (.result p))) (pure ()) (fun _ => ()) fun _ _ => True :=
        ⟨asked.holds, asked.before, trivial, fun _ s' isRef same => ⟨isRef, same, rfl⟩⟩
      exact unused.bind fun e s₁ holds _ _ => mirrors_tell holds o l _ fun _ => ""
    · exact mirrors_pure holds rfl trivial

/-- The affine indices, or the step without one and the error, with other numbers. -/
def renumberIndexed (number : Value → Nat) :
    Except (Place × AffineError) (List Affine) → Except (Place × AffineError) (List Affine) :=
  changeBoth (fun e => (e.1, e.2.renumber number)) (List.map (·.renumber number))

def indexedExprs : Except (Place × AffineError) (List Affine) → List Expr :=
  listBoth (·.2.exprs) (List.flatMap Affine.exprs)

theorem mirrors_describeSteps (l : LoopId) {ivs : Variables} (recorded : RecordsAll s.context (ivs.map (·.recurrence)))
    (steps : List Place) :
    Mirrors frame s (describeSteps l ivs steps) (describeSteps l (ivs.map (·.renumber number)) steps)
      (renumberIndexed number) fun c indexed => RecordsAll c (indexedExprs indexed) := by
  induction steps generalizing s with
  | nil => exact mirrors_pure holds rfl (by simp [RecordsAll, indexedExprs, listBoth])
  | cons step rest ih =>
    refine (mirrors_ask (mirrors_stepIndex finds holds step)).bind fun index s₁ holds later₁ isIndex => ?_
    refine (mirrors_ask (Query.mirrors_atScope finds (some l) index holds isIndex)).bind
      fun offset s₂ holds later₂ isOffset => ?_
    have recorded := (recorded.later later₁).later later₂
    refine (mirrors_ask (mirrors_decompose holds recorded isOffset)).bind fun form s₃ holds later₃ isForm => ?_
    cases form with
    | error e => exact mirrors_pure holds rfl isForm
    | ok a =>
      refine (ih holds (recorded.later later₃)).bind fun others s₄ holds later₄ isOthers => ?_
      cases others with
      | error e => exact mirrors_pure holds rfl isOthers
      | ok as =>
        refine mirrors_pure holds rfl fun e member => ?_
        rcases List.mem_append.mp member with first | later
        · exact later₄.records e (isForm e first)
        · exact isOthers e later

/-- The access, or the dropped one, with other numbers. -/
def renumberDescribed (number : Value → Nat) : Except Dropped MemoryAccess → Except Dropped MemoryAccess :=
  changeBoth (·.renumber number) (·.renumber number)

def describedExprs : Except Dropped MemoryAccess → List Expr :=
  listBoth Dropped.exprs MemoryAccess.exprs

theorem mirrors_describe (o : Options) {ivs : Variables} (recorded : RecordsAll s.context (ivs.map (·.recurrence)))
    (l : LoopId) (p : Place) :
    Mirrors frame s (describe o ivs l p) (describe o.silent (ivs.map (·.renumber number)) l p)
      (renumberDescribed number) fun c described => RecordsAll c (describedExprs described) := by
  refine mirrors_state holds fun s' here there _ => ?_
  rw [Context.function, Context.function, here, there]
  dsimp only [Options.silent]
  simp only [pure_bind]
  cases rootBase? F.function (addressSteps F.function p o.wide) with
  | none =>
    refine (mirrors_describeSteps finds holds l recorded _).bind fun indexed s₁ holds _ isIndexed => ?_
    cases indexed with
    | error e => exact mirrors_pure holds rfl isIndexed
    | ok equations => exact mirrors_pure holds rfl isIndexed
  | some v =>
    refine (mirrors_baseValue holds l v).bind fun v s₁ holds later₁ _ => ?_
    refine (mirrors_ask (finds v s₁.context holds)).bind fun base s₂ holds later₂ isBase => ?_
    have recorded := (recorded.later later₁).later later₂
    refine (mirrors_describeSteps finds holds l recorded _).bind fun indexed s₃ holds later₃ isIndexed => ?_
    cases indexed with
    | error e => exact mirrors_pure holds rfl isIndexed
    | ok equations =>
      exact mirrors_pure holds rfl (List.forall_mem_cons.mpr ⟨later₃.records base isBase, isIndexed⟩)

theorem mirrors_describeAll (o : Options) {ivs : Variables} (recorded : RecordsAll s.context (ivs.map (·.recurrence)))
    (l : LoopId) (places : List Place) :
    Mirrors frame s (describeAll o ivs l places) (describeAll o.silent (ivs.map (·.renumber number)) l places)
      (Prod.map (List.map (·.renumber number)) (List.map (·.renumber number)))
      fun c found => RecordsAll c (found.1.flatMap MemoryAccess.exprs) ∧ RecordsAll c (found.2.flatMap Dropped.exprs) := by
  induction places generalizing s with
  | nil => exact mirrors_pure holds rfl (by simp [RecordsAll])
  | cons p rest ih =>
    refine (mirrors_tellValue finds holds o l p).bind fun _ s₁ holds later₁ _ => ?_
    have recorded := recorded.later later₁
    refine mirrors_state holds fun s' here there _ => ?_
    rw [Context.function, Context.function, here, there]
    dsimp only
    split
    · refine (mirrors_describe finds holds o recorded l p).bind fun described s₂ holds later₂ isDescribed => ?_
      have recorded := recorded.later later₂
      cases described with
      | error d =>
        refine (mirrors_tell holds o l _ _).bind fun _ s₃ holds later₃ _ => ?_
        refine (ih holds (recorded.later later₃)).bind fun others s₄ holds later₄ isOthers => ?_
        refine mirrors_pure holds rfl ⟨isOthers.1, fun e member => ?_⟩
        rcases List.mem_append.mp member with first | later
        · exact (later₃.trans later₄).records e (isDescribed e first)
        · exact isOthers.2 e later
      | ok a =>
        refine (mirrors_tell holds o l _ _).bind fun _ s₃ holds later₃ _ => ?_
        refine (ih holds (recorded.later later₃)).bind fun others s₄ holds later₄ isOthers => ?_
        refine mirrors_pure holds rfl ⟨fun e member => ?_, isOthers.2⟩
        rcases List.mem_append.mp member with first | later
        · exact (later₃.trans later₄).records e (isDescribed e first)
        · exact isOthers.1 e later
    · exact ih holds recorded

theorem mirrors_solvePairs (o : Options) (l : LoopId) {base : Option Expr} (isBase : RecordsAll s.context base.toList)
    {pairs : List (MemoryAccess × MemoryAccess)} (recorded : RecordsAll s.context (pairs.flatMap accessExprs)) :
    Mirrors frame s (solvePairs o l base pairs)
      (solvePairs o.silent l (base.map (·.renumber number)) (pairs.map (renumberAccesses number)))
      (List.map (·.renumber number)) fun c solved => RecordsAll c (solved.flatMap Pair.exprs) := by
  induction pairs generalizing s with
  | nil => exact mirrors_pure holds rfl (by simp [RecordsAll])
  | cons pair rest ih =>
    obtain ⟨isPair, others⟩ : RecordsAll s.context (accessExprs pair) ∧ RecordsAll s.context (rest.flatMap accessExprs) :=
      each_append.mp recorded
    refine (mirrors_ask (mirrors_pairModel finds holds o.label isPair)).bind fun model s₁ holds later₁ _ => ?_
    refine (mirrors_tell holds o l _ _).bind fun _ s₂ holds later₂ _ => ?_
    have later := later₁.trans later₂
    refine (ih holds (isBase.later later) (Each.later others later)).bind fun solved s₃ holds later₃ isSolved => ?_
    refine mirrors_pure holds rfl (each_append.mpr ⟨each_append.mpr ⟨?_, ?_⟩, isSolved⟩)
    · exact isBase.later (later.trans later₃)
    · exact isPair.later (later.trans later₃)

theorem mirrors_solveGroups (o : Options) (l : LoopId) {groups : List Group}
    (recorded : ∀ g ∈ groups, RecordsAll s.context g.exprs) :
    Mirrors frame s (solveGroups o l groups) (solveGroups o.silent l (groups.map (·.renumber number)))
      (Prod.map (List.map (·.renumber number)) (List.map (·.renumber number)))
      fun c solved => RecordsAll c (solved.1.flatMap Pair.exprs) ∧
        RecordsAll c (solved.2.flatMap ArityMismatch.exprs) := by
  induction groups generalizing s with
  | nil => exact mirrors_pure holds rfl (by simp [RecordsAll])
  | cons g rest ih =>
    have isG := recorded g (by simp)
    have isPaired := Group.recordsAll_pairs isG
    have others : ∀ {s₁ : State}, s.context.Before s₁.context → ∀ g ∈ rest, RecordsAll s₁.context g.exprs :=
      fun later g member => (recorded g (by simp [member])).later later
    rw [List.map_cons, solveGroups, solveGroups, Group.pairs_renumber]
    cases paired : g.pairs with
    | error e =>
      rw [paired] at isPaired
      refine (mirrors_tell holds o l _ _).bind fun _ s₁ holds later₁ _ => ?_
      refine (ih holds (others later₁)).bind fun solved s₂ holds later₂ isSolved => ?_
      refine mirrors_pure holds rfl ⟨isSolved.1, each_append.mpr ⟨?_, isSolved.2⟩⟩
      exact Each.later isPaired (later₁.trans later₂)
    | ok pairs =>
      rw [paired] at isPaired
      have isBase : RecordsAll s.context g.base.toList := (each_append.mp isG).1
      refine (mirrors_solvePairs finds holds o l isBase isPaired).bind fun first s₁ holds later₁ isFirst => ?_
      refine (ih holds (others later₁)).bind fun solved s₂ holds later₂ isSolved => ?_
      refine mirrors_pure holds (by simp) ⟨?_, isSolved.2⟩
      rw [List.flatMap_append]
      exact each_append.mpr ⟨Each.later isFirst later₂, isSolved.1⟩

theorem mirrors_examine (o : Options) {ivs : Variables} (recorded : RecordsAll s.context (ivs.map (·.recurrence)))
    (l : LoopId) {iv : InductionVariable} (member : iv ∈ ivs) :
    Mirrors frame s (examine o ivs F l iv)
      (examine o.silent (ivs.map (·.renumber number)) F l (iv.renumber number)) (·.renumber number)
      fun c r => RecordsAll c r.exprs := by
  refine (mirrors_describeAll finds holds o recorded l _).bind fun described s₁ holds later₁ isDescribed => ?_
  have isGroups := recordsAll_groups isDescribed.1
  have groups : groupByBase (described.1.map (·.renumber number)) = (groupByBase described.1).map (·.renumber number) :=
    groupByBase_renumber (frame.filed holds) isDescribed.1
  dsimp only [Prod.map]
  rw [groups]
  refine (mirrors_solveGroups finds holds o l isGroups).bind fun solved s₂ holds later₂ isSolved => ?_
  have isPairs : RecordsAll s₂.context ((solved.1.map fun p => (p.a, p.b)).flatMap accessExprs) := by
    intro e inside
    simp only [List.flatMap_map, List.mem_flatMap] at inside
    obtain ⟨p, isPair, inside⟩ := inside
    exact isSolved.1 e (List.mem_flatMap.mpr ⟨p, isPair, List.mem_append_right _ inside⟩)
  have pairs : ((solved.1.map (·.renumber number)).map fun p => (p.a, p.b)) =
      (solved.1.map fun p => (p.a, p.b)).map (renumberAccesses number) := by
    rw [List.map_map, List.map_map]
    rfl
  dsimp only [Prod.map]
  rw [pairs]
  refine (mirrors_ask (mirrors_conflictModel? finds holds o.label isPairs)).bind fun model s₃ holds later₃ _ => ?_
  refine mirrors_pure holds rfl ?_
  have later := later₂.trans later₃
  simp only [LoopResult.exprs, each_append]
  refine ⟨⟨⟨⟨⟨fun e isIv => ?_, isDescribed.1.later later⟩, isDescribed.2.later later⟩, ?_⟩, isSolved.1.later later₃⟩,
    isSolved.2.later later₃⟩
  · rw [List.mem_singleton.mp isIv]
    exact (later₁.trans later).records _ (recorded _ (List.mem_map_of_mem member))
  · intro e inside
    obtain ⟨g, isGroup, inside⟩ := List.mem_flatMap.mp inside
    exact later.records e (isGroups g isGroup e inside)

theorem mirrors_analyzeLoop (o : Options) {ivs : Variables} (recorded : RecordsAll s.context (ivs.map (·.recurrence)))
    (l : LoopId) :
    Mirrors frame s (analyzeLoop o ivs l) (analyzeLoop o.silent (ivs.map (·.renumber number)) l) (·.renumber number)
      fun c r => RecordsAll c r.exprs := by
  refine mirrors_forest holds ?_
  refine (mirrors_tell holds o l _ _).bind fun _ s₁ holds later₁ _ => ?_
  rw [Variables.ofLoop?_renumber]
  cases found : Variables.ofLoop? ivs l with
  | none =>
    refine (mirrors_tell holds o l _ _).bind fun _ s₂ holds _ _ => mirrors_pure holds rfl ?_
    simp [RecordsAll, LoopResult.exprs]
  | some iv =>
    have member : iv ∈ ivs := List.mem_of_find?_eq_some found
    refine (mirrors_tell holds o l _ _).bind fun _ s₂ holds later₂ _ => ?_
    refine (mirrors_forget holds).bind fun _ s₃ holds later₃ _ => ?_
    refine (mirrors_ask (Query.mirrors_tripCount finds l holds)).bind fun count s₄ holds later₄ _ => ?_
    have recorded := recorded.later (((later₁.trans later₂).trans later₃).trans later₄)
    cases count with
    | none => exact mirrors_examine finds holds o recorded l member
    | some count =>
      refine (mirrors_tell holds o l _ _).bind fun _ s₅ holds later₅ _ => ?_
      exact mirrors_examine finds holds o (recorded.later later₅) l member

theorem mirrors_analyzeLoops (o : Options) {ivs : Variables} (recorded : RecordsAll s.context (ivs.map (·.recurrence)))
    (loops : List LoopId) :
    Mirrors frame s (analyzeLoops o ivs loops) (analyzeLoops o.silent (ivs.map (·.renumber number)) loops)
      (List.map (·.renumber number)) fun c results => RecordsAll c (results.flatMap LoopResult.exprs) := by
  induction loops generalizing s with
  | nil => exact mirrors_pure holds rfl (by simp [RecordsAll])
  | cons l rest ih =>
    refine (mirrors_analyzeLoop finds holds o recorded l).bind fun first s₁ holds later₁ isFirst => ?_
    refine (ih holds (recorded.later later₁)).bind fun others s₂ holds later₂ isOthers => mirrors_pure holds rfl ?_
    exact each_append.mpr ⟨isFirst.later later₂, isOthers⟩

end

/-- All loops are analyzed after their variables have been recognized. -/
def analyzeAll (o : Options) (F : Forest) : Analyze (List LoopResult) := do
  let ivs ← ask recognizeAll
  analyzeLoops o ivs F.ids

theorem analyzeAll_eq (o : Options) (F : Forest) (c : Context) :
    analyzeAll o F { context := c } = analyzeLoops o (recognizeAll c).1 F.ids { context := (recognizeAll c).2 } :=
  rfl

theorem mirrors_analyzeAll {frame : Frame F number} {s : State} (finds : frame.Finds)
    (holds : frame.holds s.context) (o : Options) :
    Mirrors frame s (analyzeAll o F) (analyzeAll o.silent F) (List.map (·.renumber number))
      fun c results => RecordsAll c (results.flatMap LoopResult.exprs) := by
  refine (mirrors_ask (mirrors_recognizeAll finds holds)).bind fun ivs s₁ holds _ isIvs => ?_
  exact mirrors_analyzeLoops finds holds o (List.forall_mem_map.mpr isIvs) F.ids

end Analysis

end LoopConflict
