import LoopConflict.Analysis
import LoopConflict.Proofs.Access.Conflict
import LoopConflict.Proofs.Access.Grouping

/-!
What an analysis says about a pair. However far the pair was reached into the analysis, its facts hold in
the context at the end: both accesses have the steps and indices that they are described by, the sides
have the same number of indices, the model is that of the pair, and the result is the verdict on the
model (`analyze_settled`).
-/
namespace LoopConflict

open Loop (Forest LoopId)
open Program (Function Place Value)
open Evolution (Expr Context Query Ensures Settles ensures_pure ensures_get)
open Access

/-! ### What is found out about a pair -/

namespace Access

/-- The index is an affine form over the variables; that of a field is its number. -/
structure IndexOf (f : Function) (ivs : Variables) (step : Place) (e : Affine) : Prop where
  uses : ∀ coeff ∈ e.coeffs, coeff.iv ∈ ivs
  field : ∀ x n, f.operation? step = some (.fieldAddress x n) → e = ⟨[], Int64.ofNat n⟩

/-- The access has the address computations that it depends on, each with its index. -/
structure MemoryAccess.Described (f : Function) (wide : Bool) (ivs : Variables) (a : MemoryAccess) : Prop where
  steps : a.steps = addressSteps f a.place wide
  equations : List.Forall₂ (IndexOf f ivs) a.steps a.equations

theorem MemoryAccess.Described.mem_of_mem_variables {f : Function} {wide : Bool} {ivs : Variables}
    {a : MemoryAccess} (described : a.Described f wide ivs) {iv : InductionVariable} (used : iv ∈ a.variables) :
    iv ∈ ivs := by
  obtain ⟨e, member, inCoeffs⟩ := List.mem_flatMap.mp used
  obtain ⟨coeff, inside, rfl⟩ := List.mem_map.mp inCoeffs
  obtain ⟨steps, equations⟩ := described
  generalize a.steps = ps at equations
  generalize a.equations = es at equations member
  induction equations with
  | nil => cases member
  | cons index _ ih =>
    rcases List.mem_cons.mp member with rfl | later
    · exact index.uses coeff inside
    · exact ih later

end Access

/-- The two accesses are described, and the result is the verdict on the model in which their indices are
    equal. -/
structure Pair.Settled (c : Context) (o : Options) (ivs : Variables) (p : Pair) : Prop where
  first : p.a.Described c.function o.wide ivs
  second : p.b.Described c.function o.wide ivs
  arity : p.a.equations.length = p.b.equations.length
  model : ModelOf c (p.a.equations.zip p.b.equations) p.model
  result : p.result = Linear.solve p.model o.budget

namespace Analysis

/-! ### Steps of the analysis -/

variable {α : Type} {P : α → Context → Prop}

theorem ask_ensures {q : Query α} (ensures : Ensures id q P) : Ensures State.context (ask q) P :=
  fun s => ensures s.context

theorem modify_ensures {g : State → State} (kept : ∀ s, (g s).context = s.context) :
    Ensures State.context (modify g) fun _ _ => True := by
  intro s
  refine ⟨?_, fun _ _ => trivial⟩
  change s.context.Extends (g s).context
  rw [kept s]
  exact .refl s.context

theorem tell_ensures (o : Options) (l : LoopId) (line : Context → String) :
    Ensures State.context (tell o l line) fun _ _ => True := by
  unfold tell
  split
  · exact modify_ensures fun _ => rfl
  · exact ensures_pure fun _ => trivial

theorem forest_ensures : Ensures State.context forest fun F c => c.forest = F :=
  ensures_get fun _ => ensures_pure fun _ later => later.forest

theorem baseValue_ensures (l : LoopId) (v : Value) : Ensures State.context (baseValue l v) fun _ _ => True := by
  refine forest_ensures.bind fun F => ?_
  split
  · exact ensures_pure fun _ _ => trivial
  · refine ensures_get fun s => ?_
    split
    · exact ensures_pure fun _ _ _ => trivial
    · refine Ensures.bind (modify_ensures ?_) fun _ => ensures_pure ?_
      · intro s
        rfl
      · intros
        trivial

/-! ### Descriptions -/

theorem stepIndex_ensures (step : Place) :
    Ensures id (stepIndex step) fun e c =>
      ∀ x n, c.function.operation? step = some (.fieldAddress x n) → e = .const (Int64.ofNat n) := by
  refine ensures_get fun c₀ => ?_
  have same : ∀ c, Context.Extends c₀ c → c.function = c₀.function := fun _ later => later.function
  split
  · rename_i index operation
    refine (Query.settles_evolution index).ensures.mono fun e c _ later x n field => ?_
    rw [same c later, operation] at field
    cases field
  · rename_i n operation
    refine (Query.settles_const _).ensures.mono fun e c answer later x n' field => ?_
    rw [same c later, operation] at field
    cases field
    exact answer.symm.trans (Query.const_fst _ c)
  · rename_i other
    refine (Query.settles_const _).ensures.mono fun e c _ later x n field => ?_
    rw [same c later] at field
    exact absurd field (other x n)

theorem atScope_ensures (scope : Option LoopId) (e : Expr) :
    Ensures id (Query.atScope scope e) fun e' _ => ∀ k, e = .const k → e' = .const k := by
  refine (Query.settles_atScope scope e).ensures.mono fun e' c answer k same => ?_
  rw [same, Query.atScope] at answer
  · exact answer.symm
  all_goals simp

theorem describeSteps_ensures (l : LoopId) (ivs : Variables) (steps : List Place) :
    Ensures State.context (describeSteps l ivs steps) fun answer c =>
      ∀ equations, answer = .ok equations → List.Forall₂ (IndexOf c.function ivs) steps equations := by
  induction steps with
  | nil =>
    refine ensures_pure fun c equations answer => ?_
    cases answer
    exact .nil
  | cons step rest ih =>
    refine (ask_ensures (stepIndex_ensures step)).bind fun index =>
      (ask_ensures (atScope_ensures (some l) index)).bind fun offset =>
        (ask_ensures (decompose_ensures ivs offset)).bind fun form => ?_
    split
    · exact ensures_pure fun _ _ _ _ _ answer => by cases answer
    · rename_i e
      refine ih.bind fun others => ?_
      split
      · exact ensures_pure fun _ _ _ _ _ _ answer => by cases answer
      · rename_i es
        refine ensures_pure fun c described decomposed seen indexed equations answer => ?_
        cases answer
        obtain ⟨uses, const⟩ := decomposed e rfl
        refine .cons ⟨uses, fun x n field => const _ (seen _ (indexed x n field))⟩ (described es rfl)

theorem describe_ensures (o : Options) (ivs : Variables) (l : LoopId) (p : Place) :
    Ensures State.context (describe o ivs l p) fun answer c =>
      ∀ a, answer = .ok a → a.Described c.function o.wide ivs := by
  refine ensures_get fun s => ?_
  simp only [pure_bind]
  split
  · refine (describeSteps_ensures l ivs _).bind fun answer => ?_
    split
    · exact ensures_pure fun _ _ _ _ dropped => by cases dropped
    · rename_i equations
      refine ensures_pure fun c indexed later a described => ?_
      cases described
      exact ⟨by rw [later.function], indexed equations rfl⟩
  · refine (baseValue_ensures l _).bind fun v => ?_
    refine (ask_ensures (Query.settles_evolution v).ensures).bind fun e => ?_
    refine (describeSteps_ensures l ivs _).bind fun answer => ?_
    split
    · exact ensures_pure fun _ _ _ _ _ _ dropped => by cases dropped
    · rename_i equations
      refine ensures_pure fun c indexed _ _ later a described => ?_
      cases described
      exact ⟨by rw [later.function], indexed equations rfl⟩

theorem tellValue_ensures (o : Options) (l : LoopId) (p : Place) :
    Ensures State.context (tellValue o l p) fun _ _ => True := by
  refine ensures_get fun s => ?_
  dsimp only
  split
  · split
    · refine (ask_ensures (Query.settles_evolution _).ensures).bind fun e => (tell_ensures o l _).mono ?_
      intros
      trivial
    · exact ensures_pure fun _ _ => trivial
  · exact ensures_pure fun _ _ => trivial

theorem describeAll_ensures (o : Options) (ivs : Variables) (l : LoopId) (places : List Place) :
    Ensures State.context (describeAll o ivs l places) fun answer c =>
      ∀ a ∈ answer.1, a.Described c.function o.wide ivs := by
  induction places with
  | nil => exact ensures_pure fun _ _ member => by cases member
  | cons p rest ih =>
    refine (tellValue_ensures o l p).bind fun _ => ensures_get fun s => ?_
    dsimp only
    split
    · refine (describe_ensures o ivs l p).bind fun answer => ?_
      split
      · refine (tell_ensures o l _).bind fun _ => ih.bind fun answer => ensures_pure ?_
        intro c others _ _ _ _
        exact others
      · rename_i a
        refine (tell_ensures o l _).bind fun _ => ih.bind fun answer => ensures_pure ?_
        intro c others _ described _ _ a' member
        rcases List.mem_cons.mp member with rfl | later
        · exact described _ rfl
        · exact others a' later
    · refine ih.mono fun answer c others => ?_
      intro _ _
      exact others

/-! ### Verdicts -/

theorem solvePairs_ensures (o : Options) (l : LoopId) (base : Option Expr)
    (pairs : List (MemoryAccess × MemoryAccess)) :
    Ensures State.context (solvePairs o l base pairs) fun answer c => ∀ p ∈ answer,
      (p.a, p.b) ∈ pairs ∧ ModelOf c (p.a.equations.zip p.b.equations) p.model ∧ p.result = Linear.solve p.model o.budget := by
  induction pairs with
  | nil => exact ensures_pure fun _ _ member => by cases member
  | cons pair rest ih =>
    obtain ⟨a, b⟩ := pair
    refine (ask_ensures (pairModel_ensures o.label a b)).bind fun model =>
      (tell_ensures o l _).bind fun _ => ih.bind fun answer => ensures_pure ?_
    intro c others _ built p member
    rcases List.mem_cons.mp member with rfl | later
    · exact ⟨by simp, built, rfl⟩
    · obtain ⟨inRest, model, result⟩ := others p later
      exact ⟨by simp [inRest], model, result⟩

theorem solveGroups_ensures (o : Options) (l : LoopId) (ivs : Variables) (groups : List Group) :
    Ensures State.context (solveGroups o l groups) fun answer c =>
      (∀ g ∈ groups, ∀ a ∈ g.members, a.Described c.function o.wide ivs) → ∀ p ∈ answer.1, p.Settled c o ivs := by
  induction groups with
  | nil => exact ensures_pure fun _ _ _ member => by cases member
  | cons g rest ih =>
    rw [solveGroups]
    split
    · refine (tell_ensures o l _).bind fun _ => ih.bind fun answer => ensures_pure ?_
      intro c others _ described
      exact others fun g' member => described g' (by simp [member])
    · rename_i pairs paired
      refine (solvePairs_ensures o l g.base pairs).bind fun first => ih.bind fun answer => ensures_pure ?_
      intro c others solved described p member
      rcases List.mem_append.mp member with here | later
      · obtain ⟨inPairs, model, result⟩ := solved p here
        obtain ⟨inFirst, inSecond, arity⟩ := Group.mem_of_pairs paired inPairs
        have each := described g (by simp)
        exact ⟨each p.a inFirst, each p.b inSecond, arity, model, result⟩
      · exact others (fun g' inRest => described g' (by simp [inRest])) p later

/-! ### Loops -/

/-- The analysis of a loop with a variable, after all that is only told. -/
def examine (o : Options) (ivs : Variables) (F : Forest) (l : LoopId) (iv : InductionVariable) : Analyze LoopResult := do
  let described ← describeAll o ivs l (directPlaces F l)
  let solved ← solveGroups o l (groupByBase described.1)
  let model ← ask (conflictModel? o.label (solved.1.map fun p => (p.a, p.b)))
  return ⟨l, some iv, described.1, described.2, groupByBase described.1, solved.1, model, solved.2⟩

/-- What holds of a loop without a variable and of one with its accesses examined holds of every loop. -/
theorem analyzeLoop_ensures_of {P : LoopResult → Context → Prop} (o : Options) (ivs : Variables) (l : LoopId)
    (bare : ivs.ofLoop? l = none → ∀ c, P { loop := l } c)
    (examined : ∀ F iv, ivs.ofLoop? l = some iv →
      Ensures State.context (examine o ivs F l iv) fun r c => c.forest = F → P r c) :
    Ensures State.context (analyzeLoop o ivs l) P := by
  refine forest_ensures.bind fun F => (tell_ensures o l _).bind fun _ => ?_
  split
  · rename_i none
    refine (tell_ensures o l _).bind fun _ => ensures_pure ?_
    intro c _ _ _
    exact bare none c
  · rename_i iv found
    have rest := examined F iv found
    refine (tell_ensures o l _).bind fun _ => Ensures.bind (modify_ensures fun _ => rfl) fun _ =>
      (ask_ensures (Query.settles_tripCount l).ensures).bind fun count => Ensures.mono
        (P := fun r c => c.forest = F → P r c) ?_ ?_
    · dsimp only
      cases count with
      | some count =>
        refine (tell_ensures o l _).bind fun _ => ?_
        exact rest.mono fun _ _ holds _ => holds
      | none => exact rest
    · intro r c holds _ _ _ _ forest
      exact holds forest

theorem analyzeLoops_ensures_of {P : LoopId → LoopResult → Context → Prop} (o : Options) (ivs : Variables)
    (each : ∀ l, Ensures State.context (analyzeLoop o ivs l) (P l)) (loops : List LoopId) :
    Ensures State.context (analyzeLoops o ivs loops) fun answer c => List.Forall₂ (fun l r => P l r c) loops answer := by
  induction loops with
  | nil => exact ensures_pure fun _ => .nil
  | cons l rest ih =>
    refine (each l).bind fun first => ih.bind fun others => ensures_pure ?_
    intro c later here
    exact .cons here later

theorem analyzeLoop_ensures (o : Options) (ivs : Variables) (l : LoopId) :
    Ensures State.context (analyzeLoop o ivs l) fun answer c => ∀ p ∈ answer.pairs, p.Settled c o ivs := by
  refine analyzeLoop_ensures_of o ivs l (fun _ c p member => by cases member) fun F iv _ => ?_
  refine (describeAll_ensures o ivs l _).bind fun described => (solveGroups_ensures o l ivs _).bind fun solved =>
    (ask_ensures (conflictModel?_ensures o.label _)).bind fun model => ensures_pure ?_
  intro c _ settled described _
  exact settled fun g inGroups a member => described a ((mem_members_iff inGroups).mp member).1

end Analysis

/-! ### The whole analysis -/

theorem recognizeAll_ensures : Ensures id recognizeAll fun ivs c => ∀ iv ∈ ivs, iv.Known c :=
  ensures_get fun c => (recognizeEach_ensures c.forest.ids).mono fun _ _ known _ => known

/-- The loops are analyzed after the variables of all of them have been recognized. -/
theorem analyze_eq (f : Function) (o : Options) :
    ((analyze f o).loops, (analyze f o).context) =
      let recognized := recognizeAll (Context.ofForest (Forest.ofFunction f))
      let run := Analysis.analyzeLoops o recognized.1 (Forest.ofFunction f).ids { context := recognized.2 }
      (run.1, run.2.context) := by
  unfold analyze analyzeForest
  generalize recognizeAll (Context.ofForest (Forest.ofFunction f)) = recognized
  generalize Analysis.analyzeLoops = analyzeLoops
  rfl

theorem analyze_extends (f : Function) (o : Options) :
    (recognizeAll (Context.ofForest (Forest.ofFunction f))).2.Extends (analyze f o).context := by
  rw [(Prod.mk.inj (analyze_eq f o)).2]
  exact (Analysis.analyzeLoops_ensures_of o _ (Analysis.analyzeLoop_ensures o _) _ { context := _ }).1

theorem analyze_forest (f : Function) (o : Options) : (analyze f o).context.forest = .ofFunction f :=
  (analyze_extends f o).forest.trans (recognizeAll_ensures (Context.ofForest (Forest.ofFunction f))).1.forest

theorem analyze_function (f : Function) (o : Options) : (analyze f o).context.function = f :=
  congrArg Forest.function (analyze_forest f o)

theorem analyze_known {f : Function} {o : Options} {iv : InductionVariable} (member : iv ∈ inductionVariables f) :
    iv.Known (analyze f o).context :=
  (recognizeAll_ensures (Context.ofForest (Forest.ofFunction f))).2 _ (analyze_extends f o) iv member

/-- What is ensured of each loop holds of all results at the end, in the order of the loops. -/
theorem analyze_forall {P : LoopId → LoopResult → Context → Prop} (f : Function) (o : Options)
    (each : ∀ l, Ensures Analysis.State.context (Analysis.analyzeLoop o (inductionVariables f) l) (P l)) :
    List.Forall₂ (fun l r => P l r (analyze f o).context) (Forest.ofFunction f).ids (analyze f o).loops := by
  obtain ⟨loops, context⟩ := Prod.mk.inj (analyze_eq f o)
  unfold inductionVariables at each
  rw [loops, context]
  have all := Analysis.analyzeLoops_ensures_of o _ each (Forest.ofFunction f).ids
  exact (all { context := (recognizeAll (.ofForest (.ofFunction f))).2 }).2 _ (.refl _)

/-- Everything that is said about a pair holds at the end of the analysis. -/
theorem analyze_settled {f : Function} {o : Options} {r : LoopResult} (inLoops : r ∈ (analyze f o).loops) {p : Pair}
    (inPairs : p ∈ r.pairs) : p.Settled (analyze f o).context o (inductionVariables f) := by
  obtain ⟨_, _, settled⟩ := exists_of_mem_right (analyze_forall f o (Analysis.analyzeLoop_ensures o _)) inLoops
  exact settled p inPairs

theorem Pair.Settled.told {f : Function} {o : Options} {p : Pair}
    (settled : p.Settled (analyze f o).context o (inductionVariables f)) (named : f.PhisNamed) :
    Told (analyze f o).context p.a p.b := by
  refine ⟨?_, fun iv used => ?_, fun iv used => ?_⟩
  · rw [analyze_function]
    exact named
  · exact analyze_known (settled.first.mem_of_mem_variables used)
  · exact analyze_known (settled.second.mem_of_mem_variables used)

end LoopConflict
