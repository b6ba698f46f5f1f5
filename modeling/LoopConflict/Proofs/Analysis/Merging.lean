import LoopConflict.Proofs.Access.Roots
import LoopConflict.Proofs.Analysis.Pairs

/-!
Which loads share a base. The first load of each address is kept while a loop is examined, so two loads get the same
base exactly if they load from one address that is the same in every iteration and that no store in the loop names
(`baseValue_eq_iff`). A store to the struct around a field has another name: it is not noticed, and only where there
is none nothing in the loop overwrites what is loaded (`merged_loads_overwritten_iff`, `overwritten`).
-/
namespace LoopConflict

open Loop (Forest LoopId)
open Program (Function Place Value)
open Evolution (Context Query Ensures get_bind_apply)
open Access

variable {F : Forest} {l : LoopId}

namespace Access

/-- An instruction inside of the loop stores to the address, which is the same in every iteration. -/
def Stores (F : Forest) (l : LoopId) (k : AddressKey) : Prop :=
  ∃ p address x, F.contains l p.block = true ∧ F.function.operation? p = some (.store address x) ∧
    invariantAddress? F l address = some k

/-- The value is loaded from the address, which is the same in every iteration. -/
def LoadsFrom (F : Forest) (l : LoopId) (v : Value) (k : AddressKey) : Prop :=
  ∃ address, F.function.definition? v = some (.load address) ∧ invariantAddress? F l address = some k

/-- What is stored to the first address overwrites what is at the second one, which is the same or a field of it. -/
def AddressKey.Covers (k k' : AddressKey) : Prop :=
  k.root = k'.root ∧ k.fields <+: k'.fields

/-- Some store in the loop overwrites what is at the address. -/
def Overwritten (F : Forest) (l : LoopId) (k : AddressKey) : Prop :=
  ∃ k', Stores F l k' ∧ k'.Covers k

theorem storesTo_iff {k : AddressKey} : storesTo F l k = true ↔ Stores F l k := by
  simp only [storesTo, List.any_eq_true, Bool.and_eq_true]
  constructor
  · rintro ⟨p, _, inside, stores⟩
    split at stores
    · rename_i address x here
      exact ⟨p, address, x, inside, here, beq_iff_eq.mp stores⟩
    · cases stores
  · rintro ⟨p, address, x, inside, here, named⟩
    refine ⟨p, Function.mem_places_of_operation? here, inside, ?_⟩
    rw [here]
    exact beq_iff_eq.mpr named

theorem stableLoad?_eq_some_iff {v : Value} {k : AddressKey} :
    stableLoad? F l v = some k ↔ LoadsFrom F l v k ∧ ¬ Stores F l k := by
  rw [← storesTo_iff, stableLoad?]
  constructor
  · intro found
    split at found
    · rename_i address defined
      obtain ⟨named, unstored⟩ := Option.filter_eq_some_iff.mp found
      exact ⟨⟨address, defined, named⟩, by simpa using unstored⟩
    · cases found
  · rintro ⟨⟨address, defined, named⟩, unstored⟩
    rw [defined]
    exact Option.filter_eq_some_iff.mpr ⟨named, by simpa using unstored⟩

theorem LoadsFrom.key_unique {v : Value} {k k' : AddressKey} (first : LoadsFrom F l v k) (second : LoadsFrom F l v k') :
    k = k' := by
  obtain ⟨address, defined, named⟩ := first
  obtain ⟨address', defined', named'⟩ := second
  obtain ⟨rfl⟩ : address = address' := by simpa using defined.symm.trans defined'
  exact Option.some.inj (named.symm.trans named')

end Access

namespace Analysis

/-! ### Asking for a base -/

section

variable {v w : Value} {s s' : State} {k : AddressKey}

/-- All that asking for a base can do. -/
theorem baseValue_cases (l : LoopId) (v : Value) (s : State) :
    (stableLoad? s.context.forest l v = none ∧ baseValue l v s = (v, s)) ∨
    ∃ k, stableLoad? s.context.forest l v = some k ∧
      ((∃ first, s.loads.lookup k = some first ∧ baseValue l v s = (first, s)) ∨
        (s.loads.lookup k = none ∧ baseValue l v s = (v, { s with loads := (k, v) :: s.loads }))) := by
  simp only [baseValue, forest, bind_assoc, pure_bind, get_bind_apply]
  cases stableLoad? s.context.forest l v with
  | none => exact .inl ⟨rfl, rfl⟩
  | some key =>
    refine .inr ⟨key, rfl, ?_⟩
    simp only [get_bind_apply]
    cases s.loads.lookup key with
    | some first => exact .inl ⟨first, rfl, rfl⟩
    | none => exact .inr ⟨rfl, rfl⟩

theorem baseValue_context (l : LoopId) (v : Value) (s : State) : (baseValue l v s).2.context = s.context := by
  rcases baseValue_cases l v s with ⟨_, same⟩ | ⟨k, _, ⟨first, _, same⟩ | ⟨_, same⟩⟩
  all_goals rw [same]

/-- A first load stays. -/
theorem baseValue_keeps (v : Value) (known : s.loads.lookup k = some w) :
    (baseValue l v s).2.loads.lookup k = some w := by
  rcases baseValue_cases l v s with ⟨_, same⟩ | ⟨k', _, ⟨first, _, same⟩ | ⟨unknown, same⟩⟩
  · rw [same]
    exact known
  · rw [same]
    exact known
  · have other : k ≠ k' := by
      rintro rfl
      cases unknown.symm.trans known
    rw [same]
    simpa [List.lookup_cons, beq_false_of_ne other] using known

/-- What a stable load stands for is known from then on. -/
theorem lookup_baseValue (stable : stableLoad? s.context.forest l v = some k) :
    (baseValue l v s).2.loads.lookup k = some (baseValue l v s).1 := by
  rcases baseValue_cases l v s with ⟨unstable, _⟩ | ⟨k', stable', ⟨first, known, same⟩ | ⟨_, same⟩⟩
  · cases unstable.symm.trans stable
  · obtain rfl := Option.some.inj (stable'.symm.trans stable)
    rw [same]
    exact known
  · obtain rfl := Option.some.inj (stable'.symm.trans stable)
    rw [same]
    simp

/-! ### Examining a loop -/

/-- From one state to the other a loop is examined: bases are asked for, and what else is done leaves the first loads
    alone. -/
inductive Examines (l : LoopId) (s : State) : State → Prop where
  | refl : Examines l s s
  | base {s' : State} (v : Value) : Examines l s s' → Examines l s (baseValue l v s').2
  | other {s' s'' : State} : Examines l s s' → s''.context.forest = s'.context.forest → s''.loads = s'.loads →
    Examines l s s''

namespace Examines

theorem trans {s'' : State} (first : Examines l s s') (second : Examines l s' s'') : Examines l s s'' := by
  induction second with
  | refl => exact first
  | base v _ ih => exact .base v ih
  | other _ forest loads ih => exact .other ih forest loads

theorem forest (run : Examines l s s') : s'.context.forest = s.context.forest := by
  induction run with
  | refl => rfl
  | base v _ ih => rw [baseValue_context, ih]
  | other _ forest _ ih => rw [forest, ih]

theorem keeps (run : Examines l s s') (known : s.loads.lookup k = some w) : s'.loads.lookup k = some w := by
  induction run with
  | refl => exact known
  | base v _ ih => exact baseValue_keeps v ih
  | other _ _ loads ih => rw [loads, ih]

/-- A first load is a stable one of its address. -/
theorem stableLoad? (fresh : s.loads = []) (run : Examines l s s') (known : s'.loads.lookup k = some w) :
    stableLoad? s'.context.forest l w = some k := by
  induction run with
  | refl =>
    rw [fresh] at known
    cases known
  | @base s' v _ ih =>
    rw [baseValue_context]
    rcases baseValue_cases l v s' with ⟨_, same⟩ | ⟨k', stable, ⟨first, _, same⟩ | ⟨_, same⟩⟩
    · rw [same] at known
      exact ih known
    · rw [same] at known
      exact ih known
    · rw [same, List.lookup_cons] at known
      split at known
      · rename_i isKey
        cases known
        rw [stable, beq_iff_eq.mp isKey]
      · exact ih known
  | other _ forest loads ih =>
    rw [loads] at known
    rw [forest]
    exact ih known

end Examines

/-- A load stands for the loads of its own address. -/
theorem stableLoad?_baseValue (fresh : s.loads = []) (run : Examines l s s') (v : Value) :
    stableLoad? s'.context.forest l (baseValue l v s').1 = stableLoad? s'.context.forest l v := by
  rcases baseValue_cases l v s' with ⟨_, same⟩ | ⟨k, stable, ⟨first, known, same⟩ | ⟨_, same⟩⟩
  · rw [same]
  · rw [same, stable]
    exact run.stableLoad? fresh known
  · rw [same]

/-- Two values get one base exactly if they are stable loads of one address. -/
theorem baseValue_eq_iff {s₁ s₂ : State} (fresh : s.loads = []) (first : Examines l s s₁)
    (second : Examines l (baseValue l v s₁).2 s₂) (other : v ≠ w) : (baseValue l v s₁).1 = (baseValue l w s₂).1 ↔
      ∃ k, stableLoad? s.context.forest l v = some k ∧ stableLoad? s.context.forest l w = some k := by
  have run : Examines l s s₂ := (Examines.base v first).trans second
  have here := stableLoad?_baseValue fresh first v
  have there := stableLoad?_baseValue fresh run w
  rw [first.forest] at here
  rw [run.forest] at there
  constructor
  · intro same
    have alike : stableLoad? s.context.forest l v = stableLoad? s.context.forest l w := by
      rw [← here, ← there, same]
    cases stable : stableLoad? s.context.forest l v with
    | some k => exact ⟨k, rfl, alike ▸ stable⟩
    | none =>
      -- A value that is no stable load stands for itself only.
      have alone : ∀ {u t}, Examines l s t → stableLoad? s.context.forest l u = none → (baseValue l u t).1 = u := by
        intro u t reached unstable
        rcases baseValue_cases l u t with ⟨_, same⟩ | ⟨k, stable, _⟩
        · rw [same]
        · rw [reached.forest, unstable] at stable
          cases stable
      rw [alone first stable, alone run (alike ▸ stable)] at same
      exact absurd same other
  · rintro ⟨k, stableV, stableW⟩
    have known := lookup_baseValue (l := l) (s := s₁) (first.forest ▸ stableV)
    rcases baseValue_cases l w s₂ with ⟨unstable, _⟩ | ⟨k', stable, ⟨u, found, same⟩ | ⟨unknown, _⟩⟩
    · rw [run.forest, stableW] at unstable
      cases unstable
    · obtain rfl : k = k' := by
        rw [run.forest, stableW] at stable
        exact Option.some.inj stable
      rw [same]
      exact Option.some.inj ((second.keeps known).symm.trans found)
    · obtain rfl : k = k' := by
        rw [run.forest, stableW] at stable
        exact Option.some.inj stable
      cases unknown.symm.trans (second.keeps known)

end

/-! ### The examination of a loop by the analysis -/

section

variable {α β : Type} {m : Analyze α}

/-- From every state on, the loop is examined. -/
def Examining (l : LoopId) (m : Analyze α) : Prop :=
  ∀ s, Examines l s (m s).2

theorem examining_pure (a : α) : Examining l (pure a) :=
  fun _ => .refl

theorem Examining.bind {k : α → Analyze β} (first : Examining l m) (rest : ∀ a, Examining l (k a)) :
    Examining l (m >>= k) :=
  fun s => (first s).trans (rest (m s).1 (m s).2)

theorem examining_get {k : State → Analyze α} (rest : ∀ s, Examining l (k s)) : Examining l (get >>= k) :=
  fun s => rest s s

theorem examining_base (v : Value) : Examining l (baseValue l v) :=
  fun _ => .base v .refl

theorem examining_ask {q : Query α} {P : α → Context → Prop} (ensures : Ensures id q P) : Examining l (ask q) :=
  fun s => .other .refl (ensures s.context).1.forest rfl

theorem examining_tell (o : Options) (line : Context → String) : Examining l (tell o l line) := by
  unfold tell
  split
  · exact fun s => .other .refl rfl rfl
  · exact examining_pure ()

theorem examining_describeSteps (ivs : Variables) (steps : List Place) : Examining l (describeSteps l ivs steps) := by
  induction steps with
  | nil => exact examining_pure _
  | cons step rest ih =>
    refine (examining_ask (stepIndex_ensures step)).bind fun index =>
      (examining_ask (atScope_ensures (some l) index)).bind fun offset =>
        (examining_ask (decompose_ensures ivs offset)).bind fun form => ?_
    split
    · exact examining_pure _
    · refine ih.bind fun others => ?_
      split <;> exact examining_pure _

theorem examining_describe (o : Options) (ivs : Variables) (p : Place) : Examining l (describe o ivs l p) := by
  refine examining_get fun s => ?_
  simp only [pure_bind]
  split
  · refine (examining_describeSteps ivs _).bind fun answer => ?_
    split <;> exact examining_pure _
  · refine (examining_base _).bind fun v => (examining_ask (Query.settles_evolution v).ensures).bind fun e =>
      (examining_describeSteps ivs _).bind fun answer => ?_
    split <;> exact examining_pure _

theorem examining_tellValue (o : Options) (p : Place) : Examining l (tellValue o l p) := by
  refine examining_get fun s => ?_
  dsimp only
  split
  · split
    · exact (examining_ask (Query.settles_evolution _).ensures).bind fun e => examining_tell o _
    · exact examining_pure _
  · exact examining_pure _

theorem examining_describeAll (o : Options) (ivs : Variables) (places : List Place) :
    Examining l (describeAll o ivs l places) := by
  induction places with
  | nil => exact examining_pure _
  | cons p rest ih =>
    refine (examining_tellValue o p).bind fun _ => examining_get fun s => ?_
    dsimp only
    split
    · refine (examining_describe o ivs p).bind fun answer => ?_
      split
      all_goals exact (examining_tell o _).bind fun _ => ih.bind fun others => examining_pure _
    · exact ih

end

/-- Loads share a base exactly if they are from one address that no store in the loop names. Nothing in the loop
    overwrites what is there, unless it stores to a struct that the address is a field of. -/
theorem merged_loads_overwritten_iff (l : LoopId) :
    (∀ o ivs places, Examining l (describeAll o ivs l places)) ∧
    ∀ (s s₁ s₂ : State) (v w : Value), s.loads = [] → Examines l s s₁ → Examines l (baseValue l v s₁).2 s₂ → v ≠ w →
      ((baseValue l v s₁).1 = (baseValue l w s₂).1 ↔
        ∃ k, LoadsFrom s.context.forest l v k ∧ LoadsFrom s.context.forest l w k ∧ ¬ Stores s.context.forest l k) ∧
      ((baseValue l v s₁).1 = (baseValue l w s₂).1 → ∀ k, LoadsFrom s.context.forest l v k →
        (Overwritten s.context.forest l k ↔ ∃ k', Stores s.context.forest l k' ∧ k'.Covers k ∧ k' ≠ k)) := by
  refine ⟨fun o ivs places => examining_describeAll o ivs places, ?_⟩
  intro s s₁ s₂ v w fresh first second other
  have shared := baseValue_eq_iff fresh first second other
  simp only [stableLoad?_eq_some_iff] at shared
  refine ⟨shared.trans ?_, fun same k loads => ?_⟩
  · constructor
    · rintro ⟨k, ⟨loadsV, unstored⟩, loadsW, _⟩
      exact ⟨k, loadsV, loadsW, unstored⟩
    · rintro ⟨k, loadsV, loadsW, unstored⟩
      exact ⟨k, ⟨loadsV, unstored⟩, loadsW, unstored⟩
  · obtain ⟨k', ⟨loads', unstored⟩, _⟩ := shared.mp same
    obtain rfl := loads.key_unique loads'
    constructor
    · rintro ⟨k', stores, covers⟩
      refine ⟨k', stores, covers, ?_⟩
      rintro rfl
      exact unstored stores
    · rintro ⟨k', stores, covers, _⟩
      exact ⟨k', stores, covers⟩

/-- A ring is overwritten as a whole between a write to an even and one to an odd position of its buffer. -/
def overwritten : Function where
  name := "overwritten"
  receiver := none
  types := [⟨"ring", .struct [("buf", .slice (.basic .int)), ("len", .basic .int)]⟩]
  params := [⟨"s", .pointer (.named 0), 1⟩, ⟨"t", .named 0, 2⟩]
  free := []
  globals := []
  constants := [⟨.int 0, .basic .int⟩, ⟨.int 1, .basic .int⟩, ⟨.int 2, .basic .int⟩, ⟨.int 10, .basic .int⟩]
  blocks := [
    ⟨"entry", [], [1], [⟨.jump, none, 0⟩]⟩,
    ⟨"for.loop", [0, 2], [2, 3], [
      ⟨.phi [.const 0, .result ⟨2, 11⟩] "i", some ("t0", .basic .int), 0⟩,
      ⟨.binary (.compare .lt) (.result ⟨1, 0⟩) (.const 3), some ("t1", .basic .bool), 0⟩,
      ⟨.branch (.result ⟨1, 1⟩), none, 0⟩]⟩,
    ⟨"for.body", [1], [1], [
      ⟨.fieldAddress (.param 0) 0, some ("t2", .pointer (.slice (.basic .int))), 10⟩,
      ⟨.load (.result ⟨2, 0⟩), some ("t3", .slice (.basic .int)), 0⟩,
      ⟨.binary .mul (.const 2) (.result ⟨1, 0⟩), some ("t4", .basic .int), 0⟩,
      ⟨.indexAddress (.result ⟨2, 1⟩) (.result ⟨2, 2⟩), some ("t5", .pointer (.basic .int)), 11⟩,
      ⟨.store (.result ⟨2, 3⟩) (.const 1), none, 12⟩,
      ⟨.store (.param 0) (.param 1), none, 13⟩,
      ⟨.fieldAddress (.param 0) 0, some ("t6", .pointer (.slice (.basic .int))), 14⟩,
      ⟨.load (.result ⟨2, 6⟩), some ("t7", .slice (.basic .int)), 0⟩,
      ⟨.binary .add (.result ⟨2, 2⟩) (.const 1), some ("t8", .basic .int), 0⟩,
      ⟨.indexAddress (.result ⟨2, 7⟩) (.result ⟨2, 8⟩), some ("t9", .pointer (.basic .int)), 15⟩,
      ⟨.store (.result ⟨2, 9⟩) (.const 2), none, 16⟩,
      ⟨.binary .add (.result ⟨1, 0⟩) (.const 1), some ("t10", .basic .int), 0⟩,
      ⟨.jump, none, 0⟩]⟩,
    ⟨"for.done", [1], [], [⟨.leave [], none, 0⟩]⟩]
  recover := none

theorem overwritten_merged :
    let F := Forest.ofFunction overwritten
    let start : State := { context := .ofForest F }
    let loaded := baseValue 0 (.result ⟨2, 1⟩) start
    loaded.1 = (baseValue 0 (.result ⟨2, 7⟩) loaded.2).1 ∧
      LoadsFrom F 0 (.result ⟨2, 1⟩) ⟨.param 0, [0]⟩ ∧ LoadsFrom F 0 (.result ⟨2, 7⟩) ⟨.param 0, [0]⟩ ∧
      ¬ Stores F 0 ⟨.param 0, [0]⟩ ∧ Stores F 0 ⟨.param 0, []⟩ ∧ Overwritten F 0 ⟨.param 0, [0]⟩ := by
  intro F start loaded
  have loads : LoadsFrom F 0 (.result ⟨2, 1⟩) ⟨.param 0, [0]⟩ := ⟨.result ⟨2, 0⟩, rfl, by decide +kernel⟩
  have loads' : LoadsFrom F 0 (.result ⟨2, 7⟩) ⟨.param 0, [0]⟩ := ⟨.result ⟨2, 6⟩, rfl, by decide +kernel⟩
  have unnamed : ¬ Stores F 0 ⟨.param 0, [0]⟩ := by
    rw [← storesTo_iff]
    decide +kernel
  have stores : Stores F 0 ⟨.param 0, []⟩ := ⟨⟨2, 5⟩, .param 0, .param 1, by decide +kernel, rfl, by decide +kernel⟩
  obtain ⟨shared, covered⟩ := (merged_loads_overwritten_iff 0).2 start start loaded.2 (.result ⟨2, 1⟩)
    (.result ⟨2, 7⟩) rfl .refl .refl (by decide)
  have merged := shared.mpr ⟨_, loads, loads', unnamed⟩
  refine ⟨merged, loads, loads', unnamed, stores, (covered merged _ loads).mpr ⟨_, stores, ⟨rfl, ?_⟩, by decide⟩⟩
  exact List.nil_prefix

/-- The buffer before and the one after are taken for the same, so that the two writes never meet. -/
theorem overwritten_infeasible : overwritten.WellFormed ∧
    ∃ r ∈ (analyze overwritten {}).loops, ∃ p ∈ r.pairs, p.result.status = .infeasible ∧
      rootBase? overwritten p.a.steps = some (.result ⟨2, 1⟩) ∧ rootBase? overwritten p.b.steps = some (.result ⟨2, 7⟩) :=
  ⟨⟨by decide +kernel, by decide +kernel, by decide +kernel, by decide +kernel, by decide +kernel⟩, by decide +kernel⟩

end Analysis

end LoopConflict
