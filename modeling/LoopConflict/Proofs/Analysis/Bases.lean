import LoopConflict.Proofs.Access.Memory
import LoopConflict.Proofs.Access.Roots
import LoopConflict.Proofs.Analysis.Pairs
import LoopConflict.Proofs.Evolution.Describes

/-!
The bases of pairs. What the address of an access is computed from is no integer, so its evolution is the
value itself. Stable loads of one address share the first of them, so the base of a pair stands for what both
addresses are computed from. A pair that is infeasible always has one (`infeasible_base`): without indices
there is nothing that could differ. The base is the same in all iterations of the loop unless it is computed
there. If it is, both addresses are computed from a load made anew of what the loop does not change, as in
`parity`, or from the base itself. The latter may move from one iteration to the next, as the slice does in
`resliced`, where the pair is infeasible all the same.
-/
namespace LoopConflict

open Loop (Forest LoopId)
open Program (Function Place Value)
open Execution (Reached Stays State Follows run reached_run)
open Evolution
open Access

variable {F : Forest} {l : LoopId}

namespace Access

/-- The address is computed from the value, or from a load for which the value stands. -/
def MemoryAccess.RootedAt (F : Forest) (l : LoopId) (a : MemoryAccess) (w : Value) : Prop :=
  ∃ v, rootBase? F.function a.steps = some v ∧ StandsFor F l w v

/-- The base is a value that stands for what the address is computed from. -/
structure MemoryAccess.Based (F : Forest) (l : LoopId) (a : MemoryAccess) : Prop where
  access : isStep F.function (.result a.place) = false
  base : ∀ v, rootBase? F.function a.steps = some v → ∃ number w, a.base = some (.unknown number w) ∧ StandsFor F l w v

end Access

/-- The accesses of the pair have its base. -/
structure Pair.Based (F : Forest) (l : LoopId) (p : Pair) : Prop where
  first : p.a.Based F l
  second : p.b.Based F l
  sameFirst : p.a.base = p.base
  sameSecond : p.b.base = p.base

namespace Analysis

/-! ### What an analysis keeps -/

/-- Each load is a stable one of its address, and no integer. -/
def FirstLoads (F : Forest) (l : LoopId) (loads : List (AddressKey × Value)) : Prop :=
  ∀ k v, loads.lookup k = some v → stableLoad? F l v = some k ∧ F.function.isInteger v = false

/-- The context is sound, and the condition holds of the loads. -/
structure Ready (F : Forest) (L : List (AddressKey × Value) → Prop) (s : State) : Prop where
  sound : Sound F s.context
  loads : L s.loads

variable {α : Type} {P : α → Prop} {L : List (AddressKey × Value) → Prop}

theorem Ready.function {s : State} (ready : Ready F L s) : s.context.function = F.function :=
  congrArg Forest.function ready.sound.forest

theorem upholds_ask {q : Query α} (answers : Answers F q P) : Upholds (Ready F L) (ask q) P := by
  intro s ready
  obtain ⟨sound, holds⟩ := answers s.context ready.sound
  exact ⟨⟨sound, ready.loads⟩, holds⟩

theorem upholds_ask_keeping {q : Query α} (keeps : Keeps (Sound F) q) : Upholds (Ready F L) (ask q) fun _ => True :=
  upholds_ask fun c sound => ⟨keeps c sound, trivial⟩

theorem upholds_tell (o : Options) (l : LoopId) (line : Context → String) :
    Upholds (Ready F L) (tell o l line) fun _ => True := by
  unfold tell
  split
  · exact fun s ready => ⟨⟨ready.sound, ready.loads⟩, trivial⟩
  · exact upholds_pure trivial

theorem upholds_forest : Upholds (Ready F L) forest (F = ·) :=
  upholds_get fun _ ready => upholds_pure ready.sound.forest.symm

/-- The loads of an earlier loop are forgotten. -/
theorem upholds_forget (l : LoopId) {m : Analyze α} (upholds : Upholds (Ready F (FirstLoads F l)) m P) :
    Upholds (Ready F fun _ => True) (do modify (fun s => { s with loads := [] }); m) P := by
  intro s ready
  have empty : FirstLoads F l [] := fun k v known => by cases known
  obtain ⟨ready', holds⟩ := upholds { s with loads := [] } ⟨ready.sound, empty⟩
  exact ⟨⟨ready'.sound, trivial⟩, holds⟩

theorem baseValue_upholds (wf : F.function.WellFormed) {v : Value} (noInteger : F.function.isInteger v = false) :
    Upholds (Ready F (FirstLoads F l)) (baseValue l v) fun w => StandsFor F l w v ∧ F.function.isInteger w = false := by
  refine upholds_forest.bind ?_
  rintro _ rfl
  split
  · exact upholds_pure ⟨.inl rfl, noInteger⟩
  · rename_i k stable
    refine upholds_get fun s ready => ?_
    split
    · rename_i first known
      obtain ⟨stable', noInteger'⟩ := ready.loads k first known
      exact upholds_pure ⟨.inr ⟨k, stable_of_stableLoad? wf stable, stable_of_stableLoad? wf stable'⟩, noInteger'⟩
    · intro s ready
      refine ⟨⟨ready.sound, fun k' v' known => ?_⟩, .inl rfl, noInteger⟩
      change ((k, v) :: s.loads).lookup k' = some v' at known
      rw [List.lookup_cons] at known
      split at known
      · rename_i same
        cases known
        exact ⟨beq_iff_eq.mp same ▸ stable, noInteger⟩
      · exact ready.loads k' v' known

section

variable (lawful : F.Lawful)
include lawful

theorem describeSteps_upholds (ivs : Variables) (steps : List Place) :
    Upholds (Ready F L) (describeSteps l ivs steps) fun _ => True := by
  have evolutions := Query.keeps_evolution lawful
  induction steps with
  | nil => exact upholds_pure trivial
  | cons step rest ih =>
    refine (upholds_ask_keeping (keeps_stepIndex evolutions ofMemory_sound step)).bind fun index _ =>
      (upholds_ask_keeping (Query.keeps_atScope ofMemory_sound evolutions _ index)).bind fun offset _ =>
        (upholds_ask_keeping ((quiet_decompose ivs offset).keeps ofMemory_sound)).bind fun form _ => ?_
    split
    · exact upholds_pure trivial
    · refine ih.bind fun others _ => ?_
      split <;> exact upholds_pure trivial

theorem describe_upholds (o : Options) (ivs : Variables) {p : Place} (access : isStep F.function (.result p) = false) :
    Upholds (Ready F (FirstLoads F l)) (describe o ivs l p) fun answer => ∀ a, answer = .ok a → a.Based F l := by
  have wf := lawful.function
  refine upholds_get fun s ready => ?_
  rw [ready.function]
  simp only [pure_bind]
  cases root : rootBase? F.function (addressSteps F.function p o.wide) with
  | none =>
    refine (describeSteps_upholds lawful ivs _).bind fun answer _ => ?_
    split
    · exact upholds_pure fun a dropped => by cases dropped
    · refine upholds_pure fun a described => ?_
      cases described
      exact ⟨access, fun v found => by cases root.symm.trans found⟩
  | some v =>
    obtain ⟨step, _, offsets⟩ := rootBase?_cases root
    refine (baseValue_upholds wf (isInteger_stepBase? wf offsets)).bind fun w ⟨stands, noInteger⟩ =>
      (upholds_ask (Query.answers_evolution lawful w)).bind fun e describes =>
        (describeSteps_upholds lawful ivs _).bind fun answer _ => ?_
    split
    · exact upholds_pure fun a dropped => by cases dropped
    · refine upholds_pure fun a described => ?_
      cases described
      refine ⟨access, fun v' found => ?_⟩
      obtain rfl := Option.some.inj (root.symm.trans found)
      rcases describes.typed with integer | ⟨number, rfl⟩
      · rw [noInteger] at integer
        cases integer
      · exact ⟨number, w, rfl, stands⟩

theorem tellValue_upholds (o : Options) (p : Place) : Upholds (Ready F L) (tellValue o l p) fun _ => True := by
  refine upholds_get fun s ready => ?_
  rw [ready.function]
  dsimp only
  split
  · split
    · exact (upholds_ask_keeping (Query.keeps_evolution lawful _)).bind fun e _ => upholds_tell o l _
    · exact upholds_pure trivial
  · exact upholds_pure trivial

theorem describeAll_upholds (o : Options) (ivs : Variables) (places : List Place) :
    Upholds (Ready F (FirstLoads F l)) (describeAll o ivs l places) fun answer => ∀ a ∈ answer.1, a.Based F l := by
  induction places with
  | nil => exact upholds_pure fun a member => by cases member
  | cons p rest ih =>
    refine (tellValue_upholds lawful o p).bind fun _ _ => upholds_get fun s ready => ?_
    rw [ready.function]
    dsimp only
    split
    · rename_i isAccess
      have access : isStep F.function (.result p) = false := by
        change ((F.function.operation? p).map isAddressStep).getD false = false
        cases found : F.function.operation? p with
        | none => rfl
        | some operation =>
          rw [found] at isAccess
          cases operation <;> first | rfl | cases isAccess
      refine (describe_upholds lawful o ivs access).bind fun answer based => ?_
      split
      · refine (upholds_tell o l _).bind fun _ _ => ih.bind fun answer others => upholds_pure ?_
        exact others
      · rename_i a
        refine (upholds_tell o l _).bind fun _ _ => ih.bind fun answer others => upholds_pure ?_
        intro a' member
        rcases List.mem_cons.mp member with rfl | later
        · exact based _ rfl
        · exact others a' later
    · exact ih

theorem solvePairs_upholds (o : Options) (base : Option Expr) (pairs : List (MemoryAccess × MemoryAccess)) :
    Upholds (Ready F L) (solvePairs o l base pairs) fun answer => ∀ p ∈ answer, (p.a, p.b) ∈ pairs ∧ p.base = base := by
  have evolutions := Query.keeps_evolution lawful
  induction pairs with
  | nil => exact upholds_pure fun p member => by cases member
  | cons pair rest ih =>
    refine (upholds_ask_keeping (keeps_pairModel evolutions ofMemory_sound o.label pair)).bind fun model _ =>
      (upholds_tell o l _).bind fun _ _ => ih.bind fun answer others => upholds_pure ?_
    intro p member
    rcases List.mem_cons.mp member with rfl | later
    · exact ⟨by simp, rfl⟩
    · obtain ⟨inRest, same⟩ := others p later
      exact ⟨by simp [inRest], same⟩

theorem solveGroups_upholds (o : Options) {groups : List Group}
    (based : ∀ g ∈ groups, ∀ a ∈ g.members, a.Based F l ∧ a.base = g.base) :
    Upholds (Ready F L) (solveGroups o l groups) fun answer => ∀ p ∈ answer.1, p.Based F l := by
  induction groups with
  | nil => exact upholds_pure fun p member => by cases member
  | cons g rest ih =>
    have others := ih fun g' inRest => based g' (by simp [inRest])
    rw [solveGroups]
    split
    · exact (upholds_tell o l _).bind fun _ _ => others.bind fun answer each => upholds_pure each
    · rename_i pairs paired
      refine (solvePairs_upholds lawful o g.base pairs).bind fun first solved =>
        others.bind fun answer each => upholds_pure ?_
      intro p member
      rcases List.mem_append.mp member with here | later
      · obtain ⟨inPairs, same⟩ := solved p here
        obtain ⟨inFirst, inSecond, _⟩ := Group.mem_of_pairs paired inPairs
        obtain ⟨first, sameFirst⟩ := based g (by simp) p.a inFirst
        obtain ⟨second, sameSecond⟩ := based g (by simp) p.b inSecond
        exact ⟨first, second, sameFirst.trans same.symm, sameSecond.trans same.symm⟩
      · exact each p later

theorem examine_upholds (o : Options) (ivs : Variables) (iv : InductionVariable) :
    Upholds (Ready F (FirstLoads F l)) (examine o ivs F l iv) fun answer => ∀ p ∈ answer.pairs, p.Based F answer.loop := by
  have evolutions := Query.keeps_evolution lawful
  refine (describeAll_upholds lawful o ivs _).bind fun described based => ?_
  have grouped : ∀ g ∈ groupByBase described.1, ∀ a ∈ g.members, a.Based F l ∧ a.base = g.base := by
    intro g inGroups a member
    obtain ⟨inside, same⟩ := (mem_members_iff inGroups).mp member
    exact ⟨based a inside, same⟩
  exact (solveGroups_upholds lawful o grouped).bind fun solved each =>
    (upholds_ask_keeping (keeps_conflictModel? evolutions ofMemory_sound o.label _)).bind fun model _ =>
      upholds_pure each

theorem analyzeLoop_upholds (o : Options) (ivs : Variables) (l : LoopId) :
    Upholds (Ready F fun _ => True) (analyzeLoop o ivs l) fun answer => ∀ p ∈ answer.pairs, p.Based F answer.loop := by
  refine upholds_forest.bind ?_
  rintro _ rfl
  refine (upholds_tell o l _).bind fun _ _ => ?_
  split
  · exact (upholds_tell o l _).bind fun _ _ => upholds_pure fun p member => by cases member
  · rename_i iv _
    have rest := examine_upholds lawful (l := l) o ivs iv
    refine (upholds_tell o l _).bind fun _ _ => upholds_forget l ?_
    refine (upholds_ask_keeping (Query.keeps_tripCount (Query.keeps_evolution lawful) l)).bind fun count _ => ?_
    cases count with
    | some count => exact (upholds_tell o l _).bind fun _ _ => rest
    | none => exact rest

theorem analyzeLoops_upholds (o : Options) (ivs : Variables) (loops : List LoopId) :
    Upholds (Ready F fun _ => True) (analyzeLoops o ivs loops) fun answer =>
      ∀ r ∈ answer, ∀ p ∈ r.pairs, p.Based F r.loop := by
  induction loops with
  | nil => exact upholds_pure fun r member => by cases member
  | cons l rest ih =>
    refine (analyzeLoop_upholds lawful o ivs l).bind fun first here => ih.bind fun others later => upholds_pure ?_
    intro r member
    rcases List.mem_cons.mp member with rfl | inRest
    · exact here
    · exact later r inRest

end

end Analysis

/-! ### The whole analysis -/

theorem analyze_based {f : Function} (wf : f.WellFormed) {o : Options} {r : LoopResult}
    (inLoops : r ∈ (analyze f o).loops) {p : Pair} (inPairs : p ∈ r.pairs) : p.Based (.ofFunction f) r.loop := by
  have lawful := Forest.lawful_ofFunction wf
  have empty : Sound (.ofFunction f) (.ofForest (.ofFunction f)) := ⟨rfl, fun v e known => by cases known⟩
  have sound := keeps_recognizeAll (Query.keeps_evolution lawful) _ empty
  rw [(Prod.mk.inj (analyze_eq f o)).1] at inLoops
  exact (Analysis.analyzeLoops_upholds lawful o _ _ _ ⟨sound, trivial⟩).2 r inLoops p inPairs

/-- Without indices nothing has to be equal. -/
theorem Access.ModelOf.exists_solution_of_nil {c : Context} {m : Linear.Model} (model : ModelOf c [] m) :
    ∃ x v, m.Solution x v := by
  obtain ⟨v, denoted⟩ := m.exists_denotes fun _ => 0
  have vars : m.vars = [] := model.vars
  have constraints : m.constraints = [] := model.constraints
  exact ⟨_, v, by simp [vars], denoted, by simp [constraints]⟩

/-- The accesses of an infeasible pair have address computations. -/
theorem Pair.Settled.steps_ne_nil {c : Context} {o : Options} {ivs : Variables} {p : Pair} (settled : p.Settled c o ivs)
    (infeasible : p.result.status = .infeasible) : p.a.steps ≠ [] ∧ p.b.steps ≠ [] := by
  have tells := Linear.solve_tells p.model o.budget
  rw [← settled.result, Linear.SolveTells, infeasible] at tells
  have indices : p.a.equations.zip p.b.equations ≠ [] := by
    intro none
    obtain ⟨x, v, solution⟩ := ModelOf.exists_solution_of_nil (none ▸ settled.model)
    exact tells x v solution
  have first := settled.first.equations.length_eq
  have second := settled.second.equations.length_eq
  rw [← List.length_pos_iff, List.length_zip] at indices
  rw [← List.length_pos_iff, ← List.length_pos_iff]
  omega

theorem Access.MemoryAccess.Based.rootedAt {f : Function} (wf : f.WellFormed) {wide : Bool} {ivs : Variables}
    {a : MemoryAccess} (based : a.Based (.ofFunction f) l) (described : a.Described f wide ivs) (nonempty : a.steps ≠ []) :
    ∃ number w, a.base = some (.unknown number w) ∧ a.RootedAt (.ofFunction f) l w := by
  rw [described.steps] at nonempty
  obtain ⟨v, root⟩ := exists_rootBase? wf based.access nonempty
  rw [← described.steps] at root
  obtain ⟨number, w, base, stands⟩ := based.base v root
  exact ⟨number, w, base, v, root, stands⟩

theorem isInvariant_unknown {c : Context} (forest : c.forest = F) (l : LoopId) (number : Nat) (w : Value) :
    (Query.isInvariant l (.unknown number w) c).1 = true ↔ F.defines l w = false := by
  change (!c.forest.defines l w) = true ↔ _
  rw [forest, Bool.not_eq_true']

/-- If a base is no stable load, both addresses are computed from the base itself. -/
theorem Access.MemoryAccess.RootedAt.stable_or_eq {a b : MemoryAccess} {w : Value} (first : a.RootedAt F l w)
    (second : b.RootedAt F l w) :
    (∃ k, Stable F l k w) ∨ rootBase? F.function a.steps = some w ∧ rootBase? F.function b.steps = some w := by
  obtain ⟨v, root, rfl | ⟨k, _, stable⟩⟩ := first
  · obtain ⟨v', root', rfl | ⟨k, _, stable⟩⟩ := second
    · exact .inr ⟨root, root'⟩
    · exact .inl ⟨k, stable⟩
  · exact .inl ⟨k, stable⟩

/-- The base of an infeasible pair is a value that stands for what both addresses are computed from. It is the
    same in all iterations of the loop exactly if it is not computed there. Otherwise it is a stable load, or
    both addresses are computed from the base itself, whether it moves or not. -/
theorem infeasible_base {f : Function} (wf : f.WellFormed) {o : Options} {r : LoopResult}
    (inLoops : r ∈ (analyze f o).loops) {p : Pair} (inPairs : p ∈ r.pairs) (infeasible : p.result.status = .infeasible) :
    ∃ number w, p.base = some (.unknown number w) ∧
      p.a.RootedAt (.ofFunction f) r.loop w ∧ p.b.RootedAt (.ofFunction f) r.loop w ∧
      ((Query.isInvariant r.loop (.unknown number w) (analyze f o).context).1 = true ↔
        (Forest.ofFunction f).defines r.loop w = false) ∧
      ((Query.isInvariant r.loop (.unknown number w) (analyze f o).context).1 = true →
        Fixed (.ofFunction f) r.loop w) ∧
      (∀ k, stableLoad? (.ofFunction f) r.loop w = some k → Stable (.ofFunction f) r.loop k w) ∧
      ((∃ k, Stable (.ofFunction f) r.loop k w) ∨
        rootBase? f p.a.steps = some w ∧ rootBase? f p.b.steps = some w) := by
  have based := analyze_based wf inLoops inPairs
  have settled := analyze_settled inLoops inPairs
  obtain ⟨nonempty, nonempty'⟩ := settled.steps_ne_nil infeasible
  have described := settled.first
  have described' := settled.second
  rw [analyze_function] at described described'
  obtain ⟨number, w, base, rooted⟩ := based.first.rootedAt wf described nonempty
  obtain ⟨number', w', base', rooted'⟩ := based.second.rootedAt wf described' nonempty'
  obtain ⟨rfl, rfl⟩ : number = number' ∧ w = w' := by
    have same := base.symm.trans (based.sameFirst.trans (based.sameSecond.symm.trans base'))
    simpa using same
  have invariant := isInvariant_unknown (analyze_forest f o) r.loop number w
  exact ⟨number, w, based.sameFirst.symm.trans base, rooted, rooted', invariant,
    fun holds => fun stays => stays.values_eq (invariant.mp holds), fun k stable => stable_of_stableLoad? wf stable,
    rooted.stable_or_eq rooted'⟩

/-- A global slice is read at odd and written at even positions. It is loaded anew for each access. -/
def parity : Function where
  name := "parity"
  receiver := none
  types := []
  params := []
  free := []
  globals := [⟨"g", .pointer (.slice (.basic .int)), 1⟩]
  constants := [⟨.int 0, .basic .int⟩, ⟨.int 1, .basic .int⟩, ⟨.int 2, .basic .int⟩, ⟨.int 10, .basic .int⟩]
  blocks := [
    ⟨"entry", [], [1], [⟨.jump, none, 0⟩]⟩,
    ⟨"for.loop", [0, 2], [2, 3], [
      ⟨.phi [.const 0, .result ⟨2, 8⟩] "i", some ("t0", .basic .int), 0⟩,
      ⟨.binary (.compare .lt) (.result ⟨1, 0⟩) (.const 3), some ("t1", .basic .bool), 0⟩,
      ⟨.branch (.result ⟨1, 1⟩), none, 0⟩]⟩,
    ⟨"for.body", [1], [1], [
      ⟨.load (.global 0), some ("t2", .slice (.basic .int)), 0⟩,
      ⟨.binary .mul (.const 2) (.result ⟨1, 0⟩), some ("t3", .basic .int), 0⟩,
      ⟨.binary .add (.result ⟨2, 1⟩) (.const 1), some ("t4", .basic .int), 0⟩,
      ⟨.indexAddress (.result ⟨2, 0⟩) (.result ⟨2, 2⟩), some ("t5", .pointer (.basic .int)), 10⟩,
      ⟨.load (.result ⟨2, 3⟩), some ("t6", .basic .int), 0⟩,
      ⟨.load (.global 0), some ("t7", .slice (.basic .int)), 0⟩,
      ⟨.indexAddress (.result ⟨2, 5⟩) (.result ⟨2, 1⟩), some ("t8", .pointer (.basic .int)), 11⟩,
      ⟨.store (.result ⟨2, 6⟩) (.result ⟨2, 4⟩), none, 12⟩,
      ⟨.binary .add (.result ⟨1, 0⟩) (.const 1), some ("t9", .basic .int), 0⟩,
      ⟨.jump, none, 0⟩]⟩,
    ⟨"for.done", [1], [], [⟨.leave [], none, 0⟩]⟩]
  recover := none

theorem parity_wellFormed : parity.WellFormed :=
  ⟨by decide +kernel, by decide +kernel, by decide +kernel, by decide +kernel, by decide +kernel⟩

/-- A slice is moved on by one element in each iteration, in which its second element is copied to the first. So
    an iteration writes what the one before has read. -/
def resliced : Function where
  name := "resliced"
  receiver := none
  types := []
  params := [⟨"s", .slice (.basic .int), 1⟩]
  free := []
  globals := []
  constants := [⟨.int 0, .basic .int⟩, ⟨.int 1, .basic .int⟩, ⟨.int 10, .basic .int⟩]
  blocks := [
    ⟨"entry", [], [1], [⟨.jump, none, 0⟩]⟩,
    ⟨"for.loop", [0, 2], [2, 3], [
      ⟨.phi [.param 0, .result ⟨2, 4⟩] "s", some ("t0", .slice (.basic .int)), 0⟩,
      ⟨.phi [.const 0, .result ⟨2, 5⟩] "i", some ("t1", .basic .int), 0⟩,
      ⟨.binary (.compare .lt) (.result ⟨1, 1⟩) (.const 2), some ("t2", .basic .bool), 0⟩,
      ⟨.branch (.result ⟨1, 2⟩), none, 0⟩]⟩,
    ⟨"for.body", [1], [1], [
      ⟨.indexAddress (.result ⟨1, 0⟩) (.const 1), some ("t3", .pointer (.basic .int)), 10⟩,
      ⟨.load (.result ⟨2, 0⟩), some ("t4", .basic .int), 0⟩,
      ⟨.indexAddress (.result ⟨1, 0⟩) (.const 0), some ("t5", .pointer (.basic .int)), 11⟩,
      ⟨.store (.result ⟨2, 2⟩) (.result ⟨2, 1⟩), none, 12⟩,
      ⟨.other "slice t0[1:int:]" [.result ⟨1, 0⟩, .const 1], some ("t6", .slice (.basic .int)), 13⟩,
      ⟨.binary .add (.result ⟨1, 1⟩) (.const 1), some ("t7", .basic .int), 0⟩,
      ⟨.jump, none, 0⟩]⟩,
    ⟨"for.done", [1], [], [⟨.leave [], none, 0⟩]⟩]
  recover := none

theorem resliced_wellFormed : resliced.WellFormed :=
  ⟨by decide +kernel, by decide +kernel, by decide +kernel, by decide +kernel, by decide +kernel⟩

/-- The parameter has another word than what is computed from it. -/
def slicesApart : State :=
  ⟨⟨0, 0⟩, fun v => if v = .param 0 then 1 else (resliced.constant? v).getD 0, fun _ => 0⟩

/-- Some run takes the back edge, after which the slice is another one. -/
theorem resliced_moves : ∃ s s', Reached .exact (.ofFunction resliced) s ∧ Stays .exact (.ofFunction resliced) 0 s s' ∧
    s'.values (.result ⟨1, 0⟩) ≠ s.values (.result ⟨1, 0⟩) := by
  have start : Reached .exact (.ofFunction resliced) slicesApart := by
    refine .start ⟨by decide +kernel, by decide +kernel, rfl, fun v n found => ?_, fun _ => rfl⟩
    have other : v ≠ .param 0 := by
      rintro rfl
      cases found
    exact (if_neg other).trans (congrArg (Option.getD · 0) found)
  have reached := reached_run resliced_wellFormed start 14
  have place : (run .exact (.ofFunction resliced) 14 slicesApart).place = ⟨2, 7⟩ := by decide +kernel
  have before : (run .exact (.ofFunction resliced) 14 slicesApart).values (.result ⟨1, 0⟩) = 1 := by decide +kernel
  have next : (run .exact (.ofFunction resliced) 14 slicesApart).values (.result ⟨2, 4⟩) = 0 := by decide +kernel
  generalize run .exact (.ofFunction resliced) 14 slicesApart = s at reached place before next
  have atEnd : resliced.operation? s.place = none := by
    rw [place]
    decide +kernel
  have follows : Follows .exact resliced s 1 := by
    refine ⟨by rw [place]; decide +kernel, fun _ condition yes no branches => ?_⟩
    rw [place] at branches
    cases branches
  have inside : (Forest.ofFunction resliced).contains 0 s.place.block = true := by
    rw [place]
    decide +kernel
  have edge : (resliced.preds 1)[1]? = some s.place.block := by
    rw [place]
    decide +kernel
  have header : (Forest.ofFunction resliced).contains 0 1 = true := by decide +kernel
  refine ⟨s, _, reached, .step (.here inside) (.move atEnd follows edge) header, ?_⟩
  change s.values (.result ⟨2, 4⟩) ≠ _
  rw [before, next]
  decide

/-- Bases that are computed in the loop. The load of the global is stable, and the slices read and written are
    the same; the slice that moves on is the base of an infeasible pair as well. -/
theorem computed_bases :
    (parity.WellFormed ∧ ∃ r ∈ (analyze parity {}).loops, ∃ p ∈ r.pairs, p.result.status = .infeasible ∧
      p.base = some (.unknown 4 (.result ⟨2, 0⟩)) ∧
      (Query.isInvariant r.loop (.unknown 4 (.result ⟨2, 0⟩)) (analyze parity {}).context).1 = false ∧
      rootBase? parity p.a.steps = some (.result ⟨2, 0⟩) ∧ rootBase? parity p.b.steps = some (.result ⟨2, 5⟩) ∧
      p.a.RootedAt (.ofFunction parity) r.loop (.result ⟨2, 0⟩) ∧
      p.b.RootedAt (.ofFunction parity) r.loop (.result ⟨2, 0⟩) ∧
      Stable (.ofFunction parity) r.loop ⟨.global 0, []⟩ (.result ⟨2, 0⟩)) ∧
    (resliced.WellFormed ∧ ∃ r ∈ (analyze resliced {}).loops, ∃ p ∈ r.pairs, p.result.status = .infeasible ∧
      p.base = some (.unknown 4 (.result ⟨1, 0⟩)) ∧
      (Query.isInvariant r.loop (.unknown 4 (.result ⟨1, 0⟩)) (analyze resliced {}).context).1 = false ∧
      rootBase? resliced p.a.steps = some (.result ⟨1, 0⟩) ∧ rootBase? resliced p.b.steps = some (.result ⟨1, 0⟩) ∧
      ∃ s s', Reached .exact (.ofFunction resliced) s ∧ Stays .exact (.ofFunction resliced) r.loop s s' ∧
        s'.values (.result ⟨1, 0⟩) ≠ s.values (.result ⟨1, 0⟩)) := by
  constructor
  · have found : ∃ r ∈ (analyze parity {}).loops, ∃ p ∈ r.pairs, p.result.status = .infeasible ∧
        p.base = some (.unknown 4 (.result ⟨2, 0⟩)) ∧
        (Query.isInvariant r.loop (.unknown 4 (.result ⟨2, 0⟩)) (analyze parity {}).context).1 = false ∧
        rootBase? parity p.a.steps = some (.result ⟨2, 0⟩) ∧ rootBase? parity p.b.steps = some (.result ⟨2, 5⟩) ∧
        stableLoad? (.ofFunction parity) r.loop (.result ⟨2, 0⟩) = some ⟨.global 0, []⟩ := by
      decide +kernel
    obtain ⟨r, inLoops, p, inPairs, infeasible, base, moves, read, written, stable⟩ := found
    obtain ⟨number, w, base', first, second, _, _, loads, _⟩ :=
      infeasible_base parity_wellFormed inLoops inPairs infeasible
    obtain ⟨rfl, rfl⟩ : number = 4 ∧ w = .result ⟨2, 0⟩ := by simpa using base'.symm.trans base
    exact ⟨parity_wellFormed, r, inLoops, p, inPairs, infeasible, base, moves, read, written, first, second,
      loads _ stable⟩
  · have found : ∃ r ∈ (analyze resliced {}).loops, r.loop = 0 ∧ ∃ p ∈ r.pairs, p.result.status = .infeasible ∧
        p.base = some (.unknown 4 (.result ⟨1, 0⟩)) ∧
        (Query.isInvariant r.loop (.unknown 4 (.result ⟨1, 0⟩)) (analyze resliced {}).context).1 = false ∧
        rootBase? resliced p.a.steps = some (.result ⟨1, 0⟩) ∧ rootBase? resliced p.b.steps = some (.result ⟨1, 0⟩) := by
      decide +kernel
    obtain ⟨r, inLoops, loop, p, inPairs, infeasible, base, moves, read, written⟩ := found
    exact ⟨resliced_wellFormed, r, inLoops, p, inPairs, infeasible, base, moves, read, written, loop ▸ resliced_moves⟩

end LoopConflict
