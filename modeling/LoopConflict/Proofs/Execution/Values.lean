import LoopConflict.Evolution.OfValue
import LoopConflict.Proofs.Execution.Run
import LoopConflict.Proofs.Loop.Nesting

/-!
What the values are along a run. Constants keep their words (`Reached.constant`). Wherever the result of an
instruction is available, it is what the instruction computes from the operands as they are then
(`Reached.computes`): neither has been computed anew in between. A phi that counts is its start value plus
its step for every back edge that was taken since its loop was entered (`Reached.counting`).
-/
namespace LoopConflict.Execution

open Loop (Forest LoopId NaturalLoop IsNatural)
open Program (Function Place Value Operation)
open Evolution (Counting counting? stepOf? single?)

/-! ### What becomes available -/

section

variable {f : Function} {p q : Place} {b : Nat} {v : Value}

theorem available_of_next (available : f.Available p.next (.result q)) : q = p ∨ f.Available p (.result q) := by
  obtain ⟨b, i⟩ := p
  obtain ⟨c, j⟩ := q
  rcases available with ⟨same, lower | phi⟩ | outside
  · obtain rfl : c = b := same
    rcases Nat.lt_or_eq_of_le (Nat.le_of_lt_succ lower) with before | here
    · exact .inr (.inl ⟨rfl, .inl before⟩)
    · exact .inl (congrArg (Place.mk c) here)
  · exact .inr (.inl ⟨same, .inr phi⟩)
  · exact .inr (.inr outside)

/-- The result of an instruction other than a phi is not available where it is computed. -/
theorem not_available_self (noPhi : ¬ f.IsPhi p) : ¬ f.Available p (.result p) := by
  rintro (⟨_, lower | phi⟩ | ⟨other, _⟩)
  · exact Nat.lt_irrefl _ lower
  · exact noPhi phi
  · exact other rfl

theorem available_entry (available : f.Available ⟨b, 0⟩ (.result q)) :
    (f.IsPhi q ∧ q.block = b) ∨ f.AvailableBefore b (.result q) := by
  rcases available with ⟨same, lower | phi⟩ | before
  · exact absurd lower (Nat.not_lt_zero _)
  · exact .inl ⟨phi, same⟩
  · exact .inr before

/-- All results of a block are available at its end. -/
theorem available_at_end {operation : Operation} (here : f.operation? q = some operation)
    (dominates : f.dominates q.block p.block = true) (atEnd : f.operation? p = none) : f.Available p (.result q) := by
  by_cases same : q.block = p.block
  · refine .inl ⟨same, .inl ?_⟩
    by_contra notBefore
    obtain ⟨c, j⟩ := q
    obtain ⟨d, i⟩ := p
    obtain rfl : c = d := same
    have nothing : f.operation? ⟨c, j⟩ = none := by
      simp only [Function.operation?, Function.instruction?, Option.map_eq_none_iff, Option.bind_eq_bind,
        Option.bind_eq_none_iff, List.getElem?_eq_none_iff] at atEnd ⊢
      exact fun block found => Nat.le_trans (atEnd block found) (Nat.not_lt.mp notBefore)
    rw [nothing] at here
    cases here
  · exact .inr ⟨same, dominates⟩

/-- What is computed before a block does not change when the block is entered. -/
theorem entered_of_availableBefore (s : State) (j : Nat) (before : f.AvailableBefore b v) :
    s.entered f b j v = s.values v := by
  cases v with
  | result q =>
    unfold State.entered
    dsimp only
    split
    · rw [if_neg before.1]
    · rfl
  | _ => rfl

variable (wf : f.WellFormed)
include wf

theorem availableBefore_operand (before : f.AvailableBefore b (.result q)) (reachable : f.Reachable b)
    {operation : Operation} (here : f.operation? q = some operation) (noPhi : ¬ f.IsPhi q)
    (member : v ∈ operation.operands) : f.AvailableBefore b v := by
  cases v with
  | result r =>
    obtain ⟨other, dominates⟩ := before
    obtain ⟨precedes, _⟩ := wf.precedes_of_mem_operands here noPhi member
    have first := (Function.available_of_precedes precedes).dominates
    refine ⟨fun same => other ?_, Function.dominates_trans first dominates⟩
    exact (Function.dominates_antisymm reachable (same ▸ first) dominates).symm
  | _ => trivial

end

/-! ### Results of instructions -/

theorem Computes.congr {mode : Mode} {f : Function} {values values' : Value → Int64} {p : Place} {w : Int64}
    {operation : Operation} (same : ∀ v ∈ operation.operands, values' v = values v)
    (computes : Computes mode f values p w operation) : Computes mode f values' p w operation := by
  unfold Computes at computes ⊢
  split at computes <;> simp_all [Operation.operands]

variable {mode : Mode} {F : Forest} {s : State}

/-- At the start only the phis of a root could be available. -/
theorem IsStart.isPhi_of_available (start : IsStart F s) {q : Place}
    (available : F.function.Available s.place (.result q)) : F.function.IsPhi q ∧ q.block = s.place.block := by
  have same := Function.eq_of_dominates_root start.root start.block available.dominates
  rcases available with ⟨_, lower | phi⟩ | ⟨other, _⟩
  · rw [start.first] at lower
    exact absurd lower (Nat.not_lt_zero _)
  · exact ⟨phi, same⟩
  · exact absurd same other

namespace Reached

theorem constant (reached : Reached mode F s) {v : Value} {n : Int64} (found : F.function.constant? v = some n) :
    s.values v = n := by
  have noResult : ∀ q, v ≠ .result q := by
    rintro q rfl
    cases found
  induction reached with
  | start start => exact start.constants v n found
  | step _ step ih =>
    cases step with
    | skip _ => exact ih
    | compute _ _ _ => exact (if_neg (noResult _)).trans ih
    | move _ _ _ =>
      cases v with
      | result q => exact absurd rfl (noResult q)
      | _ => exact ih

variable (wf : F.function.WellFormed)
include wf

theorem mem_blockIds (reached : Reached mode F s) : s.place.block ∈ F.function.blockIds := by
  induction reached with
  | start start => exact start.block
  | step _ step ih =>
    cases step with
    | skip _ => exact ih
    | compute _ _ _ => exact ih
    | move _ follows _ => exact wf.connected.mem_blockIds_of_succ follows.1

theorem reachable (reached : Reached mode F s) : F.function.Reachable s.place.block :=
  wf.connected.reachable (reached.mem_blockIds wf)

/-- Where the result of an instruction is available, it is what the instruction computes. -/
theorem computes (reached : Reached mode F s) {q : Place} {operation : Operation}
    (here : F.function.operation? q = some operation) (noPhi : ¬ F.function.IsPhi q)
    (available : F.function.Available s.place (.result q)) :
    Computes mode F.function s.values q (s.values (.result q)) operation := by
  induction reached with
  | start start => exact absurd (start.isPhi_of_available available).1 noPhi
  | @step s s' reached step ih =>
    cases step with
    | skip phi =>
      rcases available_of_next available with rfl | earlier
      · exact absurd phi noPhi
      · exact ih earlier
    | @compute operation' w here' noPhi' computes =>
      have kept : ∀ v, F.function.Available s.place v → (s.set w).values v = s.values v := by
        intro v earlier
        refine if_neg fun same => ?_
        exact not_available_self noPhi' (same ▸ earlier)
      rcases available_of_next available with rfl | earlier
      · rw [here] at here'
        cases here'
        have result : (s.set w).values (.result s.place) = w := if_pos rfl
        rw [result]
        refine computes.congr fun v member => ?_
        cases v with
        | result r =>
          exact kept _ (Function.available_of_precedes (wf.precedes_of_mem_operands here noPhi member).1)
        | _ => exact kept _ trivial
      · rw [kept _ earlier]
        exact (ih earlier).congr fun v member =>
          kept v (wf.available_operand earlier (reached.reachable wf) here noPhi member)
    | @move b j atEnd follows edge =>
      have inside := wf.connected.mem_blockIds_of_succ follows.1
      rcases available_entry available with ⟨phi, _⟩ | before
      · exact absurd phi noPhi
      · have earlier := available_at_end here (Function.dominates_pred before.2 before.1 follows.1 inside) atEnd
        change Computes mode F.function (s.entered F.function b j) q (s.entered F.function b j (.result q)) operation
        rw [entered_of_availableBefore s j before]
        exact (ih earlier).congr fun v member => entered_of_availableBefore s j
          (availableBefore_operand wf before (wf.connected.reachable inside) here noPhi member)

end Reached

/-! ### Phis that count -/

theorem single?_eq_some {vs : List Value} {v : Value} (found : single? vs = some v) : v ∈ vs ∧ ∀ u ∈ vs, u = v := by
  cases vs with
  | nil => cases found
  | cons first rest =>
    simp only [single?, Option.ite_none_right_eq_some, Option.some.injEq, List.all_eq_true, beq_iff_eq] at found
    obtain ⟨same, rfl⟩ := found
    exact ⟨by simp, by simpa using same⟩

theorem header_of_headedBy? {b : Nat} {l : LoopId} (found : F.headedBy? b = some l) :
    ∃ x, F.loop? l = some x ∧ x.header = b := by
  obtain ⟨_, header⟩ := Option.filter_eq_some_iff.mp found
  cases loop : F.loop? l with
  | none => simp [loop] at header
  | some x => exact ⟨x, rfl, by simpa [loop] using header⟩

/-- The operation adds the step to the phi, or takes it away. -/
def Adds (phi : Place) (step : Value) (down : Bool) (operation : Operation) : Prop :=
  down = false ∧ (operation = .binary .add (.result phi) step ∨ operation = .binary .add step (.result phi)) ∨
    down = true ∧ operation = .binary .sub (.result phi) step

theorem Adds.step_mem {phi : Place} {step : Value} {down : Bool} {operation : Operation}
    (adds : Adds phi step down operation) : step ∈ operation.operands := by
  rcases adds with ⟨_, rfl | rfl⟩ | ⟨_, rfl⟩ <;> simp [Operation.operands]

theorem Adds.not_isPhi {f : Function} {phi q : Place} {step : Value} {down : Bool} {operation : Operation}
    (adds : Adds phi step down operation) (here : f.operation? q = some operation) : ¬ f.IsPhi q := by
  refine Function.not_isPhi_of_operation? here ?_
  rcases adds with ⟨_, rfl | rfl⟩ | ⟨_, rfl⟩ <;> simp

/-- What the phi gets in the next iteration is itself plus or minus the step. -/
theorem adds_of_stepOf? {f : Function} {phi : Place} {next step : Value} {down : Bool}
    (found : stepOf? f phi next = some (step, down)) :
    ∃ q operation, next = .result q ∧ f.operation? q = some operation ∧ Adds phi step down operation := by
  unfold stepOf? at found
  split at found
  · rename_i x y defined
    obtain ⟨q, rfl, here⟩ := Function.exists_place defined
    split at found
    · rename_i same
      cases found
      exact ⟨q, _, rfl, here, .inl ⟨rfl, .inl (by rw [same])⟩⟩
    · split at found
      · rename_i same
        cases found
        exact ⟨q, _, rfl, here, .inl ⟨rfl, .inr (by rw [same])⟩⟩
      · cases found
  · rename_i x y defined
    obtain ⟨q, rfl, here⟩ := Function.exists_place defined
    split at found
    · rename_i same
      cases found
      exact ⟨q, _, rfl, here, .inr ⟨rfl, by rw [same]⟩⟩
    · cases found
  · cases found

/-- How a phi counts: the edges from inside of its loop carry the next value, those from outside the
    start, and the loop does not compute the step. -/
structure Counts (F : Forest) (phi : Place) (edges : List Value) (c : Counting) (x : NaturalLoop) (next : Value) :
    Prop where
  loop : F.loop? c.loop = some x
  header : x.header = phi.block
  nexts : ∀ e ∈ (F.function.preds phi.block).zip edges, e.1 ∈ x.blocks → e.2 = next
  someNext : ∃ e ∈ (F.function.preds phi.block).zip edges, e.1 ∈ x.blocks
  starts : ∀ e ∈ (F.function.preds phi.block).zip edges, e.1 ∉ x.blocks → e.2 = c.start
  someStart : ∃ e ∈ (F.function.preds phi.block).zip edges, e.1 ∉ x.blocks
  step : stepOf? F.function phi next = some (c.step, c.down)
  kept : ∀ q, c.step = .result q → q.block ∉ x.blocks

theorem exists_counts {phi : Place} {edges : List Value} {c : Counting} (found : counting? F phi edges = some c) :
    ∃ x next, Counts F phi edges c x next := by
  simp only [counting?, Option.bind_eq_bind, Option.bind_eq_some_iff, Option.ite_none_left_eq_some,
    Option.some.injEq] at found
  obtain ⟨l, headed, next, insideEdges, start, outsideEdges, ⟨step, down⟩, steps, kept, rfl⟩ := found
  obtain ⟨x, loop, header⟩ := header_of_headedBy? headed
  have contains : ∀ b, F.contains l b = decide (b ∈ x.blocks) := by
    intro b
    simp [Forest.contains, loop, NaturalLoop.contains]
  obtain ⟨nextMember, allNext⟩ := single?_eq_some insideEdges
  obtain ⟨startMember, allStart⟩ := single?_eq_some outsideEdges
  refine ⟨x, next, loop, header, fun e member inside => ?_, ?_, fun e member outside => ?_, ?_, steps, ?_⟩
  · refine allNext _ (List.mem_map_of_mem (List.mem_filter.mpr ⟨member, ?_⟩))
    simpa [contains] using inside
  · obtain ⟨e, member, _⟩ := List.mem_map.mp nextMember
    obtain ⟨inside, holds⟩ := List.mem_filter.mp member
    exact ⟨e, inside, by simpa [contains] using holds⟩
  · refine allStart _ (List.mem_map_of_mem (List.mem_filter.mpr ⟨member, ?_⟩))
    simpa [contains] using outside
  · obtain ⟨e, member, _⟩ := List.mem_map.mp startMember
    obtain ⟨inside, holds⟩ := List.mem_filter.mp member
    exact ⟨e, inside, by simpa [contains] using holds⟩
  · rintro q rfl inside
    simp [Forest.defines, loop, NaturalLoop.defines, NaturalLoop.contains, inside] at kept

namespace Counts

variable {phi : Place} {edges : List Value} {comment : String} {c : Counting} {x : NaturalLoop} {next : Value}
  (counts : Counts F phi edges c x next) (lawful : F.Lawful)
include counts lawful

theorem isNatural : IsNatural F.function phi.block x.latches x.blocks :=
  counts.header ▸ lawful.natural counts.loop

variable (isPhi : F.function.operation? phi = some (.phi edges comment))
include isPhi

/-- The start is computed before the loop. -/
theorem availableBefore_start : F.function.AvailableBefore phi.block c.start := by
  have natural := counts.isNatural lawful
  obtain ⟨_, notRoot⟩ := lawful.function.phi_fits isPhi
  cases start : c.start with
  | result q =>
    have entries : ∀ b ∈ F.function.preds phi.block, b ∉ x.blocks → F.function.dominates q.block b = true := by
      intro b edge outside
      obtain ⟨j, at'⟩ := List.mem_iff_getElem?.mp edge
      obtain ⟨v, _, member⟩ := lawful.function.exists_edge isPhi at'
      obtain rfl : v = .result q := (counts.starts _ member outside).trans start
      exact (lawful.function.dominates_of_mem_zip isPhi member).1
    refine ⟨fun same => ?_, natural.dominates_header lawful.function.connected notRoot entries⟩
    obtain ⟨⟨b, v⟩, member, outside⟩ := counts.someStart
    have edge : b ∈ F.function.preds phi.block := (List.of_mem_zip member).1
    have latch := (natural.isLatch b).mpr ⟨lawful.function.connected.mem_succs_iff.mpr edge, same ▸ entries b edge outside⟩
    exact outside (natural.latch_mem latch)
  | _ => trivial

/-- The step is computed before the loop. -/
theorem availableBefore_step : F.function.AvailableBefore phi.block c.step := by
  have natural := counts.isNatural lawful
  obtain ⟨q, operation, isNext, here, adds⟩ := adds_of_stepOf? counts.step
  cases step : c.step with
  | result r =>
    obtain ⟨precedes, _⟩ :=
      lawful.function.precedes_of_mem_operands here (adds.not_isPhi here) (step ▸ adds.step_mem)
    obtain ⟨⟨b, v⟩, edge, inside⟩ := counts.someNext
    obtain rfl : v = .result q := (counts.nexts _ edge inside).trans isNext
    have dominates := Function.dominates_trans (Function.available_of_precedes precedes).dominates
      (lawful.function.dominates_of_mem_zip isPhi edge).1
    exact natural.before_header lawful.function.connected inside dominates (counts.kept r step)
  | _ => trivial

/-- Before control came to the phi it entered the loop, and the start was available there. -/
theorem exists_entering {mode : Mode} {s : State} (reached : Reached mode F s)
    (dominates : F.function.dominates phi.block s.place.block = true) :
    ∃ s₀, Reached mode F s₀ ∧ F.function.Available s₀.place c.start ∧
      F.function.dominates phi.block s₀.place.block = false := by
  have wf := lawful.function
  have natural := counts.isNatural lawful
  induction reached with
  | start start =>
    have same := Function.eq_of_dominates_root start.root start.block dominates
    exact absurd (same ▸ start.root) (wf.phi_fits isPhi).2
  | @step s s' reached step ih =>
    cases step with
    | skip _ => exact ih dominates
    | compute _ _ _ => exact ih dominates
    | @move b j atEnd follows edge =>
      change F.function.dominates phi.block b = true at dominates
      cases before : F.function.dominates phi.block s.place.block with
      | true => exact ih before
      | false =>
        -- Only the header itself is dominated by it without its predecessor being so.
        have header : phi.block = b := by
          by_contra other
          rw [Function.dominates_pred dominates other follows.1 (wf.connected.mem_blockIds_of_succ follows.1)] at before
          cases before
        subst header
        obtain ⟨v, _, member⟩ := wf.exists_edge isPhi edge
        have outside : s.place.block ∉ x.blocks := by
          intro inside
          rw [natural.dominates wf.connected inside] at before
          cases before
        obtain rfl : v = c.start := counts.starts _ member outside
        refine ⟨s, reached, ?_, before⟩
        cases start : c.start with
        | result q =>
          rw [start] at member
          obtain ⟨above, place⟩ := wf.dominates_of_mem_zip isPhi member
          obtain ⟨operation, here⟩ := Function.exists_operation? place
          exact available_at_end here above atEnd
        | _ => trivial

end Counts

/-! ### The invariant of counting -/

theorem Mode.Gives.self (mode : Mode) (w : Int64) : mode.Gives w w.toInt := by
  cases mode with
  | modular => exact (Int64.ofInt_toInt w).symm
  | exact => rfl

/-- Results may be computed from what gives the operands. -/
theorem Mode.Gives.add {w w' : Int64} {m n : Int} (first : mode.Gives w m) (second : mode.Gives w' (w.toInt + n)) :
    mode.Gives w' (m + n) := by
  cases mode with
  | modular =>
    change w' = _ at second
    change w' = _
    rw [second, Int64.ofInt_add, Int64.ofInt_add, Int64.ofInt_toInt, first]
  | exact => exact second.trans (by rw [show w.toInt = m from first])

namespace Counts

variable {phi : Place} {edges : List Value} {comment : String} {c : Counting} {x : NaturalLoop} {next : Value}
  (counts : Counts F phi edges c x next)
include counts

/-- When control comes to the header, the phi becomes the value of an edge, and back edges are counted. -/
theorem enter_header (wf : F.function.WellFormed) (isPhi : F.function.operation? phi = some (.phi edges comment)) {j : Nat}
    (edge : (F.function.preds phi.block)[j]? = some s.place.block) :
    ∃ v, (s.place.block, v) ∈ (F.function.preds phi.block).zip edges ∧
      (s.enter F phi.block j).values (.result phi) = s.values v ∧
      (s.enter F phi.block j).rounds c.loop = if s.place.block ∈ x.latches then s.rounds c.loop + 1 else 0 := by
  obtain ⟨v, taken, member⟩ := wf.exists_edge isPhi edge
  refine ⟨v, member, ?_, ?_⟩
  · simp [State.enter, State.entered, isPhi, taken]
  · simp [State.enter, State.counted, counts.loop, counts.header]

/-- In other blocks the phi stays as it is, and no back edges are counted. -/
theorem enter_other (isPhi : F.function.operation? phi = some (.phi edges comment)) {b j : Nat} (other : b ≠ phi.block) :
    (s.enter F b j).values (.result phi) = s.values (.result phi) ∧ (s.enter F b j).rounds c.loop = s.rounds c.loop := by
  refine ⟨?_, ?_⟩
  · simp [State.enter, State.entered, isPhi, Ne.symm other]
  · simp [State.enter, State.counted, counts.loop, counts.header, Ne.symm other]

end Counts

/-- The step with its sign. -/
def growth (c : Counting) (step : Int64) : Int :=
  if c.down then -step.toInt else step.toInt

section

variable (lawful : F.Lawful) (reached : Reached mode F s) {phi : Place} {edges : List Value} {comment : String}
  (isPhi : F.function.operation? phi = some (.phi edges comment))
  (integer : F.function.isInteger (.result phi) = true) {c : Counting} {x : NaturalLoop} {next : Value}
  (counts : Counts F phi edges c x next)
include lawful reached isPhi integer counts

/-- At the end of a latch the value for the next iteration has been computed from the phi. -/
theorem Reached.next_gives (atEnd : F.function.operation? s.place = none) {v : Value}
    (member : (s.place.block, v) ∈ (F.function.preds phi.block).zip edges) (inside : s.place.block ∈ x.blocks) :
    mode.Gives (s.values v) ((s.values (.result phi)).toInt + growth c (s.values c.step)) := by
  have wf := lawful.function
  obtain ⟨q, operation, isNext, here, adds⟩ := adds_of_stepOf? counts.step
  obtain rfl : v = .result q := (counts.nexts _ member inside).trans isNext
  have available := available_at_end here (wf.dominates_of_mem_zip isPhi member).1 atEnd
  have computes := reached.computes wf here (adds.not_isPhi here) available
  have integer' := wf.isInteger_edge isPhi integer (List.of_mem_zip member).2
  rcases adds with ⟨up, rfl | rfl⟩ | ⟨down, rfl⟩
  · simpa [growth, up] using computes integer'
  · simpa [growth, up, Int.add_comm] using computes integer'
  · simpa [growth, down, Int.sub_eq_add_neg] using computes integer'

/-- A phi that counts grows by its step with every back edge. -/
theorem Reached.counting (dominates : F.function.dominates phi.block s.place.block = true) :
    mode.Gives (s.values (.result phi))
      ((s.values c.start).toInt + growth c (s.values c.step) * s.rounds c.loop) := by
  have natural := counts.isNatural lawful
  have start := counts.availableBefore_start lawful isPhi
  have step := counts.availableBefore_step lawful isPhi
  have wf := lawful.function
  induction reached with
  | start start =>
    have same := Function.eq_of_dominates_root start.root start.block dominates
    exact absurd (same ▸ start.root) (wf.phi_fits isPhi).2
  | @step s s' reached step' ih =>
    cases step' with
    | skip _ => exact ih dominates
    | @compute operation w here noPhi computes =>
      have kept : ∀ v, F.function.AvailableBefore phi.block v → (s.set w).values v = s.values v := by
        intro v before
        refine if_neg fun same => ?_
        exact not_available_self noPhi (same ▸ before.available dominates (reached.reachable wf))
      have phiKept : (s.set w).values (.result phi) = s.values (.result phi) := by
        refine if_neg fun same => noPhi ?_
        obtain rfl : phi = s.place := Value.result.inj same
        exact ⟨edges, comment, isPhi⟩
      rw [phiKept, kept _ start, kept _ step]
      exact ih dominates
    | @move b j atEnd follows edge =>
      have inside := wf.connected.mem_blockIds_of_succ follows.1
      have kept : ∀ v, F.function.AvailableBefore phi.block v → (s.enter F b j).values v = s.values v := by
        intro v before
        exact entered_of_availableBefore s j (before.trans dominates (wf.connected.reachable inside))
      rw [kept _ start, kept _ step]
      by_cases back : b = phi.block
      · subst back
        obtain ⟨v, member, value, rounds⟩ := counts.enter_header wf isPhi edge
        rw [value, rounds]
        by_cases isLatch : s.place.block ∈ x.latches
        · -- The phi becomes the next value, which was computed from it in this iteration.
          have inLoop := natural.latch_mem isLatch
          have added := reached.next_gives lawful isPhi integer counts atEnd member inLoop
          have total := (ih (natural.dominates wf.connected inLoop)).add added
          rw [if_pos isLatch, Int.natCast_add, Int.mul_add, ← Int.add_assoc]
          simpa using total
        · have outside : s.place.block ∉ x.blocks := fun inLoop =>
            isLatch ((natural.mem_latches_iff wf.connected follows.1).mpr inLoop)
          have isStart : v = c.start := counts.starts _ member outside
          rw [isStart, if_neg isLatch]
          simpa using Mode.Gives.self mode (s.values c.start)
      · obtain ⟨value, rounds⟩ := counts.enter_other isPhi (s := s) (j := j) back
        rw [value, rounds]
        exact ih (Function.dominates_pred dominates (Ne.symm back) follows.1 inside)

end

end LoopConflict.Execution
