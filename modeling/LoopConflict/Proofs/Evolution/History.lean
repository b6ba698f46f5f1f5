import LoopConflict.Proofs.Evolution.Mirroring
import Mathlib.Order.WellFounded

/-!
Evolutions do not depend on what was asked before. What is asked for to find the evolution of a value was computed
before it (`wellFounded_asks`), so once unknown values have numbers there is one evolution for each value
(`exists_evolves`). What is remembered are these evolutions up to numbers, except for the values whose evolution is
being found (`Faithful`). So questions can be mirrored in a context that remembers these evolutions from the start
(`Frame.recalling`).
-/
namespace LoopConflict.Evolution

open Loop (Forest LoopId)
open Program (Function Value Place Operation)
open Execution (exists_counts)

variable {F : Forest} {number : Value → Nat}

/-! ### What is asked for was computed before -/

theorem precedes_of_asks (lawful : F.Lawful) {p q : Place} (asks : Asks F (.result q) (.result p)) :
    F.function.precedes q p = true := by
  obtain ⟨here, member⟩ := asks
  rename_i operation
  have before : F.function.AvailableBefore p.block (.result q) → F.function.precedes q p = true := by
    rintro ⟨other, dominates⟩
    rw [Function.precedes, if_neg other, dominates]
  have operand (noPhi : ¬ F.function.IsPhi p) (isOperand : .result q ∈ operation.operands) :
      F.function.precedes q p = true :=
    (lawful.function.precedes_of_mem_operands here noPhi isOperand).1
  cases operation with
  | phi edges comment =>
    cases found : counting? F p edges with
    | none => simp [asked, found] at member
    | some k =>
      obtain ⟨x, next, counts⟩ := exists_counts found
      simp only [asked, found, Option.map_some, Option.getD_some, List.mem_cons, List.not_mem_nil, or_false] at member
      rcases member with isStep | isStart
      · exact before (isStep ▸ counts.availableBefore_step lawful here)
      · exact before (isStart ▸ counts.availableBefore_start lawful here)
  | binary op x y => exact operand (Function.not_isPhi_of_operation? here (by simp)) member
  | convert x => exact operand (Function.not_isPhi_of_operation? here (by simp)) member
  | changeType x => exact operand (Function.not_isPhi_of_operation? here (by simp)) member
  | _ => cases member

theorem wellFounded_asks (lawful : F.Lawful) : WellFounded (Asks F) := by
  have basic : ∀ v, F.function.definition? v = none → Acc (Asks F) v := by
    intro v undefined
    refine ⟨_, fun w asks => ?_⟩
    obtain ⟨here, _⟩ := asks
    rw [show F.function.definition? (.result _) = some _ from here] at undefined
    cases undefined
  have computed : ∀ p : { p // p ∈ F.function.places }, Acc (Asks F) (.result p.1) := by
    intro p
    induction p using lawful.function.wellFounded_precedes.induction with
    | _ p ih =>
      refine ⟨_, fun w asks => ?_⟩
      cases defined : F.function.definition? w with
      | none => exact basic w defined
      | some operation =>
        obtain ⟨q, rfl, here⟩ := Function.exists_place defined
        exact ih ⟨q, Function.mem_places_of_operation? here⟩ (precedes_of_asks lawful asks)
  refine ⟨fun v => ?_⟩
  cases defined : F.function.definition? v with
  | none => exact basic v defined
  | some operation =>
    obtain ⟨p, rfl, here⟩ := Function.exists_place defined
    exact computed ⟨p, Function.mem_places_of_operation? here⟩

/-! ### One evolution for each value -/

section

variable {self self' : Value → Query Expr}

theorem evolutionOfOperation_congr {p : Place} {operation : Operation}
    (same : ∀ w ∈ asked F p operation, self w = self' w) :
    evolutionOfOperation self F p operation = evolutionOfOperation self' F p operation := by
  cases operation with
  | phi edges comment =>
    cases found : counting? F p edges with
    | none => simp only [evolutionOfOperation, found]
    | some k =>
      have step := same k.step (by simp [asked, found])
      have start := same k.start (by simp [asked, found])
      simp only [evolutionOfOperation, found, evolutionOfCounting, step, start]
  | binary op x y =>
    have first := same x (by simp [asked])
    have second := same y (by simp [asked])
    cases op <;> simp only [evolutionOfOperation, first, second]
  | convert x => simp only [evolutionOfOperation, same x (by simp [asked])]
  | changeType x => simp only [evolutionOfOperation, same x (by simp [asked])]
  | _ => rfl

theorem findEvolution_congr {v : Value} {c : Context} (forest : c.forest = F) (same : ∀ w, Asks F w v → self w = self' w) :
    findEvolution self v c = findEvolution self' v c := by
  rw [findEvolution, findEvolution, get_bind, get_bind, forest]
  cases v with
  | result p =>
    cases here : F.function.operation? p with
    | none => simp only [here]
    | some operation => simp only [here, evolutionOfOperation_congr fun w member => same w (.operand here member)]
  | _ => rfl

end

/-- Another value. -/
def otherThan : Value → Value
  | .param _ => .free 0
  | _ => .param 0

/-- A context in which the value has its number. -/
def numbered (F : Forest) (number : Value → Nat) (v : Value) : Context :=
  ⟨F, List.replicate (number v) (otherThan v) ++ [v], [], []⟩

theorem idxOf?_numbered (F : Forest) (number : Value → Nat) (v : Value) :
    (numbered F number v).unknowns.idxOf? v = some (number v) := by
  have other : otherThan v ≠ v := by cases v <;> simp [otherThan]
  refine List.idxOf?_eq_some_iff.mpr ⟨by simp [numbered], by simp [numbered], fun i small => ?_⟩
  simpa [numbered, List.getElem_append, small] using other

/-- The evolution of each value is the one that is found with those that are asked for. -/
def Evolves (F : Forest) (number : Value → Nat) (E : Value → Expr) : Prop :=
  ∀ v, (findEvolution (fun w => pure (E w)) v (numbered F number v)).1 = E v

open Classical in
theorem exists_evolves (lawful : F.Lawful) (number : Value → Nat) : ∃ E, Evolves F number E := by
  have wf := wellFounded_asks lawful
  let find (v : Value) (earlier : ∀ w, Asks F w v → Expr) : Expr :=
    (findEvolution (fun w => pure (if asks : Asks F w v then earlier w asks else .const 0)) v (numbered F number v)).1
  refine ⟨wf.fix find, fun v => ?_⟩
  rw [wf.fix_eq]
  refine congrArg Prod.fst (findEvolution_congr (F := F) rfl fun w asks => ?_)
  rw [dif_pos asks]

/-! ### What is remembered -/

variable {E : Value → Expr} {pending : Value → Prop} {c c' : Context} {v : Value}

/-- What is remembered is the evolution of the value up to numbers, unless that is being found. -/
structure Faithful (F : Forest) (number : Value → Nat) (E : Value → Expr) (pending : Value → Prop) (c : Context) :
    Prop where
  filed : c.Filed F True
  memo : ∀ v e, c.memo.lookup v = some e → pending v ∨ (c.table.Keeps number → e.renumber number = E v)

theorem faithful_ofForest (F : Forest) : Faithful F number E pending (.ofForest F) :=
  ⟨filed_ofForest F, by simp [Context.ofForest]⟩

theorem Faithful.quiet (faithful : Faithful F number E pending c) (filed : c'.Filed F True) (memo : c'.memo = c.memo)
    (before : c.Before c') : Faithful F number E pending c' := by
  refine ⟨filed, fun v e known => ?_⟩
  rw [memo] at known
  refine (faithful.memo v e known).imp_right fun told keeps => told fun e recorded => ?_
  exact keeps e (before.records e recorded)

/-- While the evolution of a value is being found the value counts as unknown. -/
theorem Faithful.toPending (faithful : Faithful F number E pending c) (fresh : c.memo.lookup v = none) :
    Faithful F number E (fun w => w = v ∨ pending w) (c.pending v) ∧ c.Before (c.pending v) := by
  have unknown := leads_unknown faithful.filed v
  have remembered := leads_remember unknown.holds (v := v) unknown.answer
  have memo : (c.pending v).memo = (v, (Query.unknown v c).1) :: c.memo := rfl
  have filed : (c.pending v).Filed F True := by
    have same := Query.unknown_memo v c
    refine ⟨remembered.holds.forest, remembered.holds.tidy, remembered.holds.distinct, remembered.holds.numbered,
      fun w e known => remembered.holds.memo w e ?_⟩
    change ((v, (Query.unknown v c).1) :: (Query.unknown v c).2.memo).lookup w = some e
    rw [same]
    exact known
  have records : ∀ e, c.Records e → (c.pending v).Records e := unknown.stays
  refine ⟨⟨filed, fun w e known => ?_⟩, ⟨c.pending_forest v, fun w e known => ?_⟩, records⟩
  · rw [memo, List.lookup_cons] at known
    split at known
    · rename_i same
      exact .inl (.inl (beq_iff_eq.mp same))
    · refine (faithful.memo w e known).imp .inr fun told keeps => told fun e recorded => keeps e (records e recorded)
  · have other : (w == v) = false := by
      refine beq_eq_false_iff_ne.mpr ?_
      rintro rfl
      rw [fresh] at known
      cases known
    rw [memo, List.lookup_cons, other]
    exact known

/-- When it has been found it is remembered. -/
theorem Faithful.remember {e : Expr} (faithful : Faithful F number E (fun w => w = v ∨ pending w) c)
    (recorded : c.Records e) (told : c.table.Keeps number → e.renumber number = E v) :
    Faithful F number E pending { c with memo := (v, e) :: c.memo } := by
  refine ⟨(leads_remember faithful.filed recorded).holds, fun w e' known => ?_⟩
  rw [List.lookup_cons] at known
  split at known
  · rename_i same
    cases known
    exact .inr (beq_iff_eq.mp same ▸ told)
  · rename_i other
    refine (faithful.memo w e' known).imp_left fun either => either.resolve_left ?_
    simpa using other

/-- The frame in which the evolution of a value is found, from a given context on. -/
def Frame.finding (F : Forest) (number : Value → Nat) (E : Value → Expr) (pending : Value → Prop) (v : Value)
    (start : Context) : Frame F number where
  holds c := Faithful F number E pending c ∧ start.Extends c
  fits c := c.table.Keeps number
  ref c := c.forest = F ∧ c.unknowns.idxOf? v = some (number v)
  filed holds := holds.1.filed
  quiet holds filed memo before := ⟨holds.1.quiet filed memo before, holds.2.trans before.toExtends⟩
  keeps keeps := keeps
  before keeps before := fun e recorded => keeps e (before.records e recorded)
  forest isRef := isRef.1
  table _ isRef := isRef
  inhabited := ⟨numbered F number v, rfl, idxOf?_numbered F number v⟩

/-- The answer is the evolution of the value up to numbers, and what is remembered still agrees. -/
structure Found (F : Forest) (number : Value → Nat) (E : Value → Expr) (pending : Value → Prop) (c : Context) (v : Value)
    (e : Expr) (c' : Context) : Prop where
  faithful : Faithful F number E pending c'
  before : c.Before c'
  recorded : c'.Records e
  told : c'.table.Keeps number → e.renumber number = E v

section

variable (evolves : Evolves F number E)
include evolves

/-- The evolution of a value is found, if those that are asked for are. -/
theorem found_of_fresh {depth : Nat} (faithful : Faithful F number E pending c) (fresh : c.memo.lookup v = none)
    (finds : ∀ w, Asks F w v → ∀ c', Faithful F number E (fun w => w = v ∨ pending w) c' → (c.pending v).Extends c' →
      Found F number E (fun w => w = v ∨ pending w) c' w (evolutionWithin depth w c').1 (evolutionWithin depth w c').2) :
    Found F number E pending c v (evolutionWithin (depth + 1) v c).1 (evolutionWithin (depth + 1) v c).2 := by
  obtain ⟨isPending, before⟩ := faithful.toPending fresh
  have grown := grows_evolutionWithin (depth + 1) v c
  have mirrors : Query.Mirrors (Frame.finding F number E (fun w => w = v ∨ pending w) v (c.pending v)) (c.pending v)
      (findEvolution (evolutionWithin depth) v) (findEvolution (fun w => pure (E w)) v) (Expr.renumber number)
      Context.Records := by
    -- The mirror is given the evolutions that are asked for, so no order of questions is left in it.
    refine mirrors_findEvolution (fun w asks c' holds => ?_) (fun c' holds => ?_) ⟨isPending, .refl _⟩
    · have found := finds w asks c' holds.1 holds.2
      refine ⟨⟨found.faithful, holds.2.trans (grows_evolutionWithin depth w c')⟩, found.before, found.recorded, ?_⟩
      exact fun keeps c'' isRef _ => ⟨isRef, trivial, (found.told keeps).symm⟩
    · exact Query.mirrors_unknown holds fun c'' isRef => isRef.2
  rw [evolutionWithin_of_fresh fresh] at grown ⊢
  have told : (findEvolution (evolutionWithin depth) v (c.pending v)).2.table.Keeps number →
      (findEvolution (evolutionWithin depth) v (c.pending v)).1.renumber number = E v := by
    intro keeps
    have mirrored := mirrors.mirrored keeps (numbered F number v) ⟨rfl, idxOf?_numbered F number v⟩ trivial
    exact mirrored.2.2.symm.trans (evolves v)
  exact ⟨mirrors.holds.1.remember mirrors.answer told,
    ⟨grown, fun e recorded => mirrors.before.records e (before.records e recorded)⟩, mirrors.answer, told⟩

/-- So it is found at any depth that suffices, unless it is being found already. -/
theorem found_evolutionWithin (lawful : F.Lawful) (depth : Nat) (faithful : Faithful F number E pending c)
    (apart : ∀ w, Relation.ReflTransGen (Asks F) w v → ¬ pending w) (enough : unanswered c < depth) :
    Found F number E pending c v (evolutionWithin depth v c).1 (evolutionWithin depth v c).2 := by
  induction depth generalizing v c pending with
  | zero => omega
  | succ depth ih =>
    cases known : c.memo.lookup v with
    | some e =>
      rw [evolutionWithin_of_lookup known]
      exact ⟨faithful, .refl c, faithful.filed.memo v e known, (faithful.memo v e known).resolve_left (apart v .refl)⟩
    | none =>
      refine found_of_fresh evolves faithful known fun w asks c' faithful' later => ih faithful' ?_ ?_
      · -- What a value asks for never leads back to it.
        rintro u below (rfl | isPending)
        · exact (wellFounded_asks lawful).transGen.irrefl.irrefl u (.tail' below asks)
        · exact apart u (below.tail asks) isPending
      · obtain ⟨here, _⟩ := asks
        have function : c.function = F.function := congrArg Forest.function faithful.filed.forest
        have less := unanswered_pending_lt (function ▸ Function.mem_places_of_operation? here) known
        have le := unanswered_le later
        omega

end

/-! ### Contexts that remember from the start -/

/-- The frame in which questions are mirrored in a context that remembers the evolutions of the given values. -/
def Frame.recalling (F : Forest) (number : Value → Nat) (E : Value → Expr) (known : List Value) : Frame F number where
  holds c := Faithful F number E (fun _ => False) c
  fits c := c.table.Keeps number ∧ ∀ v, (c.memo.lookup v).isSome = true → v ∈ known
  ref c := c.forest = F ∧ ∀ v ∈ known, c.memo.lookup v = some (E v)
  filed faithful := faithful.filed
  quiet faithful filed memo before := faithful.quiet filed memo before
  keeps fits := fits.1
  before fits before := by
    refine ⟨fun e recorded => fits.1 e (before.records e recorded), fun v isKnown => fits.2 v ?_⟩
    obtain ⟨e, remembered⟩ := Option.isSome_iff_exists.mp isKnown
    rw [before.memo v e remembered]
    rfl
  forest isRef := isRef.1
  table _ isRef := isRef
  inhabited := by
    refine ⟨⟨F, [], [], known.map fun v => (v, E v)⟩, rfl, fun v member => ?_⟩
    induction known with
    | nil => cases member
    | cons w rest ih =>
      rw [List.map_cons, List.lookup_cons]
      by_cases same : v = w
      · simp [same]
      · rw [beq_eq_false_iff_ne.mpr same]
        exact ih (by simpa [same] using member)

theorem Frame.finds_recalling (lawful : F.Lawful) (evolves : Evolves F number E) (known : List Value) :
    (recalling F number E known).Finds := by
  intro v c holds
  have enough : unanswered c < c.function.valueCount + 1 :=
    calc unanswered c ≤ c.function.places.length := List.length_filter_le _ _
      _ < c.function.valueCount + 1 := by
        unfold Function.valueCount
        omega
  have found := found_evolutionWithin evolves lawful _ holds (v := v) (by simp) enough
  rw [← evolution_eq] at found
  refine ⟨found.faithful, found.before, found.recorded, fun fits c' isRef _ => ?_⟩
  have member : v ∈ known := fits.2 v (by rw [id, lookup_evolution]; rfl)
  have same : Query.evolution v c' = (E v, c') := evolution_of_lookup (isRef.2 v member)
  rw [same]
  exact ⟨isRef, trivial, (found.told fits.1).symm⟩

end LoopConflict.Evolution
