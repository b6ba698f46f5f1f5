import LoopConflict.Proofs.Evolution.Constants
import LoopConflict.Proofs.Evolution.Describes
import LoopConflict.Proofs.Evolution.Kinds
import LoopConflict.Proofs.Evolution.Sessions
import LoopConflict.Proofs.Loop.Containment

/-!
Recurrences have a start and a step that do not change while their loop runs, and a step other than zero
(`Expr.WellFormed`). Whatever is put together from such expressions is one again (`kind_wellFormed`). The
start of a phi that counts is not checked, but it is computed before the loop and so made of values and loops from
before it (`isInvariant_start`). So all expressions of a session are well formed (`session_wellFormed`).
-/
namespace LoopConflict.Evolution

open Loop (Forest LoopId)
open Program (Function Value Place)

variable {F : Forest}

/-! ### Invariance -/

namespace Expr

mutual

theorem Over.mono {L L' : LoopId → Prop} {V V' : Value → Prop} (loops : ∀ l, L l → L' l) (values : ∀ v, V v → V' v) :
    ∀ {e : Expr}, e.Over L V → e.Over L' V'
  | .const _, _ => trivial
  | .unknown _ v, uses => values v uses
  | .recur l _ _, uses => ⟨loops l uses.1, uses.2.1.mono loops values, uses.2.2.mono loops values⟩
  | .sum _ _, uses => AllOver.mono loops values uses
  | .product _ _, uses => AllOver.mono loops values uses

theorem AllOver.mono {L L' : LoopId → Prop} {V V' : Value → Prop} (loops : ∀ l, L l → L' l) (values : ∀ v, V v → V' v) :
    ∀ {es : List Expr}, AllOver L V es → AllOver L' V' es
  | [], _ => trivial
  | _ :: _, uses => ⟨uses.1.mono loops values, AllOver.mono loops values uses.2⟩

end

/-- Start and step of each recurrence are invariant in its loop, and the step is not zero. -/
def WellFormed (F : Forest) (e : Expr) : Prop :=
  e.EachRecurrence fun l s t => s.isInvariant F l = true ∧ t.isInvariant F l = true ∧ t ≠ .const 0

/-- A recurrence may be made if its parts are invariant. -/
theorem wellFormed_recur {l : LoopId} {s t : Expr} (start : s.WellFormed F) (step : t.WellFormed F)
    (invariant : s.isInvariant F l = true ∧ t.isInvariant F l = true) (notZero : t.isZero = false) :
    (recur l s t).WellFormed F := by
  refine eachRecurrence_recur start step ⟨invariant.1, invariant.2, ?_⟩
  rintro rfl
  cases notZero

end Expr

theorem kind_wellFormed (F : Forest) : Kind F (Expr.WellFormed F) := by
  refine kind_eachRecurrence fun _ notZero steady => ?_
  obtain ⟨invariantStart, invariantStep⟩ := steady fun s t parts => ⟨parts.1, parts.2.1⟩
  refine ⟨invariantStart, invariantStep, ?_⟩
  rintro rfl
  cases notZero

/-! ### Questions that make expressions -/

namespace Query

variable {c : Context}

theorem isInvariant_combine (c : Context) (op : Combination) {ops : List Expr} {l : LoopId}
    (invariant : ∀ x ∈ ops, x.isInvariant F l = true) : (combine op ops c).1.isInvariant F l = true := by
  rw [Expr.isInvariant_iff_over]
  exact over_combine c op (Expr.allOver_iff.mpr fun x member => (Expr.isInvariant_iff_over F l x).mp (invariant x member))

theorem wellFormed_combine (forest : c.forest = F) (op : Combination) {ops : List Expr}
    (each : ∀ e ∈ ops, e.WellFormed F) : (combine op ops c).1.WellFormed F := by
  subst forest
  exact Fulfils.combine (kind_wellFormed c.forest).canonical op each

theorem wellFormed_recurrence {l : LoopId} {start step : Expr} (isStart : start.WellFormed F) (isStep : step.WellFormed F)
    (invariant : start.isInvariant F l = true ∧ step.isInvariant F l = true) (noWrap : Bool) :
    (recur l start step noWrap c).1.WellFormed F := by
  rcases recur_cases l start step noWrap c with ⟨_, made⟩ | ⟨notZero, made⟩
  · rw [made]
    exact isStart
  · rw [made]
    exact Expr.wellFormed_recur isStart isStep invariant notZero

end Query

/-! ### Phis that count -/

/-- The start of a phi that counts is computed before its loop, and so is invariant there. -/
theorem isInvariant_start {f : Function} (wf : f.WellFormed) {phi : Place} {edges : List Value} {comment : String}
    (isPhi : f.operation? phi = some (.phi edges comment)) {k : Counting}
    (found : counting? (.ofFunction f) phi edges = some k) {start : Expr}
    (describes : Describes (.ofFunction f) k.start start) : start.isInvariant (.ofFunction f) k.loop = true := by
  have lawful := Forest.lawful_ofFunction wf
  obtain ⟨x, next, counts⟩ := Execution.exists_counts found
  have natural := counts.isNatural lawful
  -- Some run comes to the phi, and it was before the loop when the start was computed.
  have inside : phi.block ∈ f.blockIds := Function.mem_blockIds_of_mem_places (Function.mem_places_of_operation? isPhi)
  obtain ⟨s, reached, block⟩ := Execution.exists_reached (F := .ofFunction f) wf (wf.connected.reachable inside)
  obtain ⟨s₀, before, available, outside⟩ :=
    counts.exists_entering lawful isPhi reached (block ▸ Function.dominates_refl f s.place.block)
  have notInside : ∀ {b}, b ∈ x.blocks → ¬ f.dominates b s₀.place.block = true := by
    intro b member dominates
    have entered := Function.dominates_trans (natural.dominates wf.connected member) dominates
    exact absurd (outside.symm.trans entered) (by decide)
  rw [Expr.isInvariant_iff_over]
  refine (describes.denotes s₀ before available).uses.mono (fun m entered => ?_) fun v known => ?_
  · obtain ⟨y, loop, dominates⟩ := entered
    rw [← Bool.not_eq_true]
    intro contains
    have subset := Forest.extent_subset_iff.mp ((Forest.containsLoop_iff_subset wf.connected counts.loop loop).mp contains)
    exact notInside (subset ((lawful.natural loop).header_mem wf.connected)) dominates
  · rw [← Bool.not_eq_true]
    intro defined
    cases v with
    | result q =>
      obtain ⟨y, loop, member⟩ := Forest.contains_iff.mp defined
      obtain rfl := Option.some.inj (counts.loop.symm.trans loop)
      exact notInside member known.dominates
    | _ => simp [Forest.defines, counts.loop, Loop.NaturalLoop.defines] at defined

/-! ### Sessions -/

/-- What the context remembers describes the values and is well formed. -/
structure Regular (F : Forest) (c : Context) : Prop where
  sound : Sound F c
  memo : ∀ v e, c.memo.lookup v = some e → e.WellFormed F

theorem ofMemory_regular : OfMemory (Regular F) :=
  fun forest memo regular => ⟨ofMemory_sound forest memo regular.sound, fun v e known => regular.memo v e (memo ▸ known)⟩

theorem Quiet.leads {α : Type} {q : Query α} (quiet : Quiet q) {c : Context} (regular : Regular F c) {P : α → Prop}
    (holds : P (q c).1) : Leads (Regular F) (fun _ e => e.WellFormed F) c q fun _ x => P x :=
  ⟨quiet.keeps ofMemory_regular c regular, fun _ wellFormed => wellFormed, holds⟩

theorem Regular.remember {c : Context} (regular : Regular F c) {v : Value} {e : Expr} (wellFormed : e.WellFormed F)
    (describes : Describes F v e) : Regular F { c with memo := (v, e) :: c.memo } := by
  refine ⟨regular.sound.remember describes, fun w e' known => ?_⟩
  rw [List.lookup_cons] at known
  split at known
  · cases known
    exact wellFormed
  · exact regular.memo w e' known

/-- Well-formed expressions are a closed kind, if recurrences are only asked for with an invariant start and step. -/
theorem closed_wellFormed {f : Function} (wf : f.WellFormed) :
    Closed (.ofFunction f)
      (fun l s t => s.isInvariant (.ofFunction f) l = true ∧ t.isInvariant (.ofFunction f) l = true)
      (Regular (.ofFunction f)) (fun _ e => e.WellFormed (.ofFunction f)) (Describes (.ofFunction f)) where
  forest regular := regular.sound.forest
  operand _ wellFormed isPart := wellFormed.operand isPart
  constant n regular := by
    refine (Query.quiet_const n).leads regular ?_
    rw [Query.const_fst]
    exact Expr.eachRecurrence_const n
  unknown v regular := by
    refine (Query.quiet_unknown v).leads regular ⟨?_, (Query.answers_unknown v _ regular.sound).2⟩
    obtain ⟨number, same⟩ := Query.exists_unknown v _
    exact same ▸ Expr.eachRecurrence_unknown number v
  combination op _ regular each := by
    refine (Query.quiet_combine op _).leads regular (Query.wellFormed_combine regular.sound.forest op fun e member => ?_)
    rcases each e member with wellFormed | ⟨n, rfl⟩
    · exact wellFormed
    · exact Expr.eachRecurrence_const n
  remembered regular known := ⟨regular.memo _ _ known, regular.sound.memo _ _ known⟩
  remember regular wellFormed describes := ⟨regular.remember wellFormed describes, fun _ kept => kept, trivial⟩
  described depth v regular :=
    have lawful := Forest.lawful_ofFunction wf
    (answers_findEvolution lawful (answers_evolutionWithin lawful depth) v _ regular.sound).2
  recurrence noWrap regular invariant isStart isStep :=
    (Query.quiet_recur _ _ _ noWrap).leads regular (Query.wellFormed_recurrence isStart isStep invariant noWrap)
  counting regular isPhi found isStart describes isStep invariant :=
    (Query.quiet_recur _ _ _ true).leads regular
      (Query.wellFormed_recurrence isStart isStep ⟨isInvariant_start wf isPhi found describes, invariant⟩ true)
  seen noWrap regular whole isStart isStep overStart overStep := by
    obtain ⟨invariantStart, invariantStep, _⟩ := whole _ _ _ .self
    rw [Expr.isInvariant_iff_over] at invariantStart invariantStep
    refine (Query.quiet_recur _ _ _ noWrap).leads regular (Query.wellFormed_recurrence isStart isStep ?_ noWrap)
    rw [Expr.isInvariant_iff_over, Expr.isInvariant_iff_over]
    exact ⟨overStart _ _ invariantStart, overStep _ _ invariantStep⟩

theorem regular_fresh (f : Function) : Regular (.ofFunction f) (.ofForest (.ofFunction f)) :=
  ⟨⟨rfl, fun v e known => by cases known⟩, fun v e known => by cases known⟩

theorem keeps_regular {f : Function} (wf : f.WellFormed) (v : Value) : Keeps (Regular (.ofFunction f)) (Query.evolution v) :=
  fun _ regular => ((closed_wellFormed wf).evolution v regular).1

/-- What a context remembers is regular, whatever was asked. -/
theorem regular_asked {f : Function} (wf : f.WellFormed) (questions : List Question) :
    Regular (.ofFunction f) (.asked f questions) :=
  ofMemory_regular.asked (keeps_regular wf) (regular_fresh f) questions

/-- Whatever is asked of the context of a well-formed function, with recurrences only of an invariant start and
    step, all expressions that it gives are well formed. Sums and products of expressions that are invariant in a
    loop are invariant in it. -/
theorem session_wellFormed {f : Function} (wf : f.WellFormed) {questions : List Question} {es : List Expr}
    (session : Session f (fun l s t => s.isInvariant (.ofFunction f) l = true ∧ t.isInvariant (.ofFunction f) l = true)
      questions es) :
    (∀ e ∈ es, e.WellFormed (.ofFunction f)) ∧
      ∀ ops l, (∀ e ∈ ops, e.isInvariant (.ofFunction f) l = true) →
        (Query.sum ops (.asked f questions)).1.isInvariant (.ofFunction f) l = true ∧
          (Query.product ops (.asked f questions)).1.isInvariant (.ofFunction f) l = true := by
  refine ⟨((closed_wellFormed wf).session (regular_fresh f) session).2, fun ops l invariant => ?_⟩
  exact ⟨Query.isInvariant_combine _ .sum invariant, Query.isInvariant_combine _ .product invariant⟩

/-- The rows of the grid do not change while its columns are counted, so there is a recurrence over the columns that
    starts with the row and grows by it. -/
theorem grid_recurrences : ∃ x questions, x = .recur 0 (.const 0) (.const 10) ∧
    Session grid (fun l s t => s.isInvariant (.ofFunction grid) l = true ∧ t.isInvariant (.ofFunction grid) l = true)
      questions [.recur 1 x x, x, .recur 1 x (.const 1)] ∧
    (Expr.recur 1 x x).WellFormed (.ofFunction grid) ∧
    (Query.sum [x, x] (.asked grid questions)).1.isInvariant (.ofFunction grid) 1 = true := by
  have fresh : Session grid
    (fun l s t => s.isInvariant (.ofFunction grid) l = true ∧ t.isInvariant (.ofFunction grid) l = true) [] [] := .start
  have evolution := fresh.answer (.evolution (.result ⟨3, 2⟩)) (.recur 1 (.recur 0 (.const 0) (.const 10)) (.const 1))
    trivial (by simp [Question.operands]) (by decide +kernel)
  have row := evolution.part (p := .recur 0 (.const 0) (.const 10)) List.mem_cons_self (by simp [Expr.operands])
  have invariant : (Expr.recur 0 (.const 0) (.const 10)).isInvariant (.ofFunction grid) 1 = true := by decide +kernel
  have session := row.answer (.recurrence 1 (.recur 0 (.const 0) (.const 10)) (.recur 0 (.const 0) (.const 10)) true)
    (.recur 1 (.recur 0 (.const 0) (.const 10)) (.recur 0 (.const 0) (.const 10)))
    ⟨invariant, invariant⟩ (by simp [Question.operands]) (by decide +kernel)
  obtain ⟨wellFormed, keeps⟩ := session_wellFormed grid_wellFormed session
  exact ⟨_, _, rfl, session, wellFormed _ List.mem_cons_self, (keeps _ 1 (by simpa using invariant)).1⟩

end LoopConflict.Evolution
