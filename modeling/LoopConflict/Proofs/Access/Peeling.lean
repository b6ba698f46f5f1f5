import LoopConflict.Proofs.Access.Bounds
import LoopConflict.Proofs.Evolution.LoopWeights
import LoopConflict.Proofs.Evolution.Recurrences

/-!
Peeling comes to an end. What is left after a recurrence was peeled is made of its start and of the start of its loop's
variable (`exists_peel`). That one is computed before the loop, so its recurrences are over loops with headers that
strictly dominate the header of the loop (`InductionVariable.over_start`). A loop weighs more than all recurrences that
can take its place (`loopWeight_start_lt`), and so each peeling makes an index lighter, although it may bring back loops
that have been peeled before.
-/
namespace LoopConflict.Access

open Loop (Forest LoopId NaturalLoop)
open Program (Function Place Value)
open Evolution

variable {f : Function} {F : Forest} {ivs : Variables} {iv : InductionVariable} {l m : LoopId}

/-! ### Loops by their headers -/

/-- The header of the first loop strictly dominates that of the second one. -/
def headedBefore (F : Forest) (m l : LoopId) : Bool :=
  match F.loop? m, F.loop? l with
  | some x, some y => F.function.dominates x.header y.header && x.header != y.header
  | _, _ => false

theorem headedBefore_iff : headedBefore F m l = true ↔ ∃ x y, F.loop? m = some x ∧ F.loop? l = some y ∧
    F.function.dominates x.header y.header = true ∧ x.header ≠ y.header := by
  unfold headedBefore
  split
  · rename_i x y isX isY
    simp [isX, isY]
  · rename_i none
    constructor
    · intro before
      cases before
    · rintro ⟨x, y, isX, isY, _⟩
      exact absurd isY (none x y isX)

theorem headedBefore_trans (wf : f.WellFormed) {k : LoopId} (first : headedBefore (.ofFunction f) k m = true)
    (second : headedBefore (.ofFunction f) m l = true) : headedBefore (.ofFunction f) k l = true := by
  obtain ⟨x, y, isX, isY, dominates, _⟩ := headedBefore_iff.mp first
  obtain ⟨y', z, isY', isZ, dominates', other⟩ := headedBefore_iff.mp second
  obtain rfl := Option.some.inj (isY.symm.trans isY')
  refine headedBefore_iff.mpr ⟨x, z, isX, isZ, Function.dominates_trans dominates dominates', fun same => other ?_⟩
  have natural := (Forest.lawful_ofFunction wf).natural isY
  have reachable := wf.connected.reachable (natural.mem_blockIds (natural.header_mem wf.connected))
  exact Function.dominates_antisymm reachable dominates' (same ▸ dominates)

/-- The number of loops that are headed before a loop. -/
def headRank (F : Forest) (l : LoopId) : Nat :=
  (F.ids.filter (headedBefore F · l)).length

theorem headRank_le (F : Forest) (l : LoopId) : headRank F l ≤ F.loops.length := by
  have few := List.length_filter_le (headedBefore F · l) F.ids
  rwa [Forest.ids, List.length_range] at few

theorem headRank_lt (wf : f.WellFormed) (before : headedBefore (.ofFunction f) m l = true) :
    headRank (.ofFunction f) m < headRank (.ofFunction f) l := by
  -- All loops before the first one are before the second one, and so is the first one itself.
  have once : (m :: (Forest.ofFunction f).ids.filter (headedBefore (.ofFunction f) · m)).Nodup := by
    refine List.nodup_cons.mpr ⟨fun member => ?_, List.nodup_range.filter _⟩
    obtain ⟨x, y, isX, isY, _, other⟩ := headedBefore_iff.mp (List.mem_filter.mp member).2
    exact other (congrArg NaturalLoop.header (Option.some.inj (isX.symm.trans isY)))
  have inside : m ∈ (Forest.ofFunction f).ids := by
    obtain ⟨x, _, isX, _⟩ := headedBefore_iff.mp before
    exact List.mem_range.mpr (List.getElem?_eq_some_iff.mp isX).1
  refine (once.subperm fun k member => ?_).length_le
  rcases List.mem_cons.mp member with rfl | earlier
  · exact List.mem_filter.mpr ⟨inside, before⟩
  · obtain ⟨isLoop, first⟩ := List.mem_filter.mp earlier
    exact List.mem_filter.mpr ⟨isLoop, headedBefore_trans wf first before⟩

/-! ### Where variables start -/

/-- The start of a variable is made of recurrences over loops that are headed before its own. -/
theorem InductionVariable.over_start (wf : f.WellFormed) {c : Context} (regular : Regular (.ofFunction f) c)
    (known : iv.Known c) {x : NaturalLoop} (heads : iv.Heads (.ofFunction f) iv.loop x) :
    iv.start.Over (headedBefore (.ofFunction f) · iv.loop = true) fun _ => True := by
  have isPhi : f.IsPhi iv.phi := by
    have phi := known.phi
    rwa [Context.function, regular.sound.forest] at phi
  -- Some run comes to the phi, and then it has entered all loops of the recurrence.
  obtain ⟨edges, comment, operation⟩ := isPhi
  have inside := Function.mem_blockIds_of_mem_places (Function.mem_places_of_operation? operation)
  obtain ⟨s, reached, block⟩ := Execution.exists_reached (F := .ofFunction f) wf (wf.connected.reachable inside)
  have available : f.Available s.place (.result iv.phi) :=
    Function.available_phi ⟨edges, comment, operation⟩ (block ▸ Function.dominates_refl f s.place.block)
  have entered := ((regular.sound.memo _ _ known.evolution).denotes s reached available).uses.2.1
  have invariant := (regular.memo _ _ known.evolution iv.loop iv.start iv.step .self).1
  rw [Expr.isInvariant_iff_over] at invariant
  refine (entered.and invariant).mono (fun m both => ?_) fun _ _ => trivial
  obtain ⟨⟨y, isY, dominates⟩, outside⟩ := both
  rw [block, heads.header] at dominates
  refine headedBefore_iff.mpr ⟨y, x, isY, heads.found, dominates, ?_⟩
  refine Forest.header_ne wf.connected isY heads.found ?_
  rintro rfl
  have inside := (Forest.containsLoop_iff_subset wf.connected heads.found heads.found).mpr subset_rfl
  rw [outside] at inside
  cases inside

theorem over_start_of_recognized (wf : f.WellFormed) (questions : List Question)
    (member : iv ∈ (recognizeAll (.asked f questions)).1) :
    iv.start.Over (headedBefore (.ofFunction f) · iv.loop = true) fun _ => True := by
  have regular := keeps_recognizeAll (keeps_regular wf) _ (regular_asked wf questions)
  obtain ⟨known, x, heads⟩ := known_of_recognized member
  rw [regular.sound.forest] at heads
  exact iv.over_start wf regular known heads

/-! ### One peeling -/

/-- What is left of the second index after one peeling is the first one. -/
def PeelsTo (ivs : Variables) (rest offset : Expr) : Prop :=
  ∃ l start step coeff c, offset = .recur l start step ∧ (peel ivs l start step c).1 = .ok (coeff, rest)

/-- What is left is made of the start of the recurrence and of that of its loop's variable. -/
theorem exists_peel {start step rest : Expr} {coeff : Coefficient} {c : Context}
    (peeled : (peel ivs l start step c).1 = .ok (coeff, rest)) :
    ∃ iv, ivs.ofLoop? l = some iv ∧ ∀ w, rest.loopWeight w ≤ start.loopWeight w + iv.start.loopWeight w := by
  have upholds : Upholds (fun _ => True) (peel ivs l start step) fun answer =>
      ∀ coeff rest, answer = .ok (coeff, rest) → ∃ iv, ivs.ofLoop? l = some iv ∧ ∀ w, rest.loopWeight w ≤ start.loopWeight w + iv.start.loopWeight w := by
    have constant : ∀ n, Upholds (fun _ => True) (Query.const n) (· = .const n) :=
      fun n c _ => ⟨trivial, Query.const_fst n c⟩
    have anything : ∀ {α : Type} (q : Query α), Upholds (fun _ => True) q fun _ => True :=
      fun _ _ _ => ⟨trivial, trivial⟩
    unfold peel
    split
    · exact upholds_pure fun _ _ answer => by cases answer
    · rename_i iv found
      split
      · refine (constant 0).bind fun zero isZero => upholds_pure fun coeff rest answer => ⟨iv, found, fun w => ?_⟩
        cases answer
        exact isZero ▸ Nat.zero_le _
      · refine (constant 0).bind fun zero isZero => (anything _).bind fun factored _ => ?_
        split
        · exact upholds_pure fun _ _ answer => by cases answer
        · split
          · split
            · rename_i k
              have product : Upholds (fun _ => True) (Query.product [.const k, iv.start])
                  fun e => ∀ w, e.loopWeight w ≤ iv.start.loopWeight w :=
                fun c _ => ⟨trivial, fun w => Query.loopWeight_product_const w k iv.start c⟩
              have difference : ∀ y, Upholds (fun _ => True) (Query.difference start y)
                  fun e => ∀ w, e.loopWeight w ≤ start.loopWeight w + y.loopWeight w :=
                fun y c _ => ⟨trivial, fun w => Query.loopWeight_difference w start y c⟩
              refine product.bind fun scaled leScaled => (difference scaled).bind fun rest leRest =>
                upholds_pure fun coeff rest' answer => ⟨iv, found, fun w => ?_⟩
              cases answer
              exact Nat.le_trans (leRest w) (Nat.add_le_add_left (leScaled w) _)
            · exact upholds_pure fun _ _ answer => by cases answer
          · exact upholds_pure fun _ _ answer => by cases answer
  exact (upholds c trivial).2 coeff rest peeled

/-- A peeling takes a recurrence over its loop away and only brings in recurrences over loops that are headed before. -/
theorem recurrencesOver_peel (starts : ∀ iv ∈ ivs, iv.start.Over (headedBefore F · iv.loop = true) fun _ => True)
    {start step rest : Expr} {coeff : Coefficient} {c : Context}
    (peeled : (peel ivs l start step c).1 = .ok (coeff, rest)) (notBefore : headedBefore F m l = false) :
    rest.recurrencesOver m + (if l = m then 1 else 0) ≤ (Expr.recur l start step).recurrencesOver m := by
  obtain ⟨iv, found, light⟩ := exists_peel peeled
  obtain ⟨member, rfl⟩ := mem_of_ofLoop? found
  have none : iv.start.recurrencesOver m * 1 ≤ iv.start.size * 0 := by
    refine Expr.loopWeight_mul_le ((starts iv member).mono (fun k before => ?_) fun _ any => any)
    rw [if_neg]
    rintro rfl
    rw [notBefore] at before
    cases before
  have le := light fun k => if k = m then 1 else 0
  simp only [Expr.recurrencesOver, Expr.loopWeight] at none le ⊢
  omega

/-! ### All peelings -/

/-- The weight of a loop: more than what all variables start with can weigh, if they start with loops before it. -/
def peelWeight (F : Forest) (ivs : Variables) (l : LoopId) : Nat :=
  Nat.pow (Expr.sizes (ivs.map (·.start)) + 1) (headRank F l)

theorem peelWeight_pos (F : Forest) (ivs : Variables) (l : LoopId) : 0 < peelWeight F ivs l :=
  Nat.pow_pos (Nat.succ_pos _)

theorem size_start_le (member : iv ∈ ivs) : iv.start.size ≤ Expr.sizes (ivs.map (·.start)) := by
  induction ivs with
  | nil => cases member
  | cons first rest ih =>
    rw [List.map_cons, Expr.sizes]
    rcases List.mem_cons.mp member with rfl | later
    · exact Nat.le_add_right _ _
    · exact Nat.le_trans (ih later) (Nat.le_add_left _ _)

theorem loopWeight_start_lt (wf : f.WellFormed) (member : iv ∈ ivs)
    (before : iv.start.Over (headedBefore (.ofFunction f) · iv.loop = true) fun _ => True) :
    iv.start.loopWeight (peelWeight (.ofFunction f) ivs) < peelWeight (.ofFunction f) ivs iv.loop := by
  have each : iv.start.Over (fun m => peelWeight (.ofFunction f) ivs m * (Expr.sizes (ivs.map (·.start)) + 1) ≤
      peelWeight (.ofFunction f) ivs iv.loop) fun _ => True := by
    refine before.mono (fun m before => ?_) fun _ any => any
    calc peelWeight (.ofFunction f) ivs m * (Expr.sizes (ivs.map (·.start)) + 1)
        = Nat.pow (Expr.sizes (ivs.map (·.start)) + 1) (headRank (.ofFunction f) m + 1) := rfl
      _ ≤ peelWeight (.ofFunction f) ivs iv.loop := Nat.pow_le_pow_right (Nat.succ_pos _) (headRank_lt wf before)
  have total := Expr.loopWeight_mul_le each
  have positive := peelWeight_pos (.ofFunction f) ivs iv.loop
  have small := Nat.mul_lt_mul_of_pos_right (Nat.lt_succ_of_le (size_start_le member)) positive
  refine Nat.lt_of_mul_lt_mul_right (a := Expr.sizes (ivs.map (·.start)) + 1) (Nat.lt_of_le_of_lt total ?_)
  rwa [Nat.mul_comm (peelWeight _ _ _)]

/-- Each peeling makes an index lighter. -/
theorem loopWeight_lt_of_peelsTo {w : LoopId → Nat} (lighter : ∀ iv ∈ ivs, iv.start.loopWeight w < w iv.loop)
    {rest offset : Expr} (peels : PeelsTo ivs rest offset) : rest.loopWeight w < offset.loopWeight w := by
  obtain ⟨l, start, step, coeff, c, rfl, peeled⟩ := peels
  obtain ⟨iv, found, light⟩ := exists_peel peeled
  obtain ⟨member, rfl⟩ := mem_of_ofLoop? found
  have := light w
  have := lighter iv member
  rw [Expr.loopWeight]
  omega

theorem peelAll_succ (peelings : Nat) (start step : Expr) (c : Context) :
    (peelAll ivs (peelings + 1) (.recur l start step) c).1 =
      match (peel ivs l start step c).1 with
      | .error err => some (.error err)
      | .ok (coeff, rest) => (peelAll ivs peelings rest (peel ivs l start step c).2).1.map
          (Except.map fun a => ⟨coeff :: a.coeffs, a.const⟩) := by
  rw [peelAll]
  change (StateT.bind (peel ivs l start step) _ c).1 = _
  rw [StateT.bind]
  rcases peel ivs l start step c with ⟨_ | ⟨coeff, rest⟩, c'⟩
  · rfl
  · change (StateT.bind (peelAll ivs peelings rest) _ c').1 = ((peelAll ivs peelings rest c').1).map _
    rw [StateT.bind]
    rcases peelAll ivs peelings rest c' with ⟨_ | _ | _, c''⟩ <;> rfl

theorem exists_peelAll_of_loop? {offset : Expr} (ends : offset.loop? = none) (peelings : Nat) (c : Context) :
    ∃ answer, ∀ more, (peelAll ivs (peelings + more) offset c).1 = some answer := by
  cases offset with
  | recur l start step => cases ends
  | const k => exact ⟨.ok ⟨[], k⟩, fun more => by cases peelings + more <;> rfl⟩
  | _ => exact ⟨.error (.remains _), fun more => by cases peelings + more <;> rfl⟩

/-- As many peelings as an index weighs are enough, and more of them change nothing. -/
theorem exists_peelAll {w : LoopId → Nat} (positive : ∀ l, 0 < w l)
    (lighter : ∀ iv ∈ ivs, iv.start.loopWeight w < w iv.loop) {peelings : Nat} {offset : Expr}
    (enough : offset.loopWeight w ≤ peelings) (c : Context) :
    ∃ answer, ∀ more, (peelAll ivs (peelings + more) offset c).1 = some answer := by
  induction peelings generalizing offset c with
  | zero =>
    cases offset with
    | recur l start step =>
      have := positive l
      rw [Expr.loopWeight] at enough
      omega
    | _ => exact exists_peelAll_of_loop? rfl 0 c
  | succ peelings ih =>
    cases offset with
    | recur l start step =>
      have next : ∀ more, peelings + 1 + more = peelings + more + 1 := by omega
      simp only [next, peelAll_succ]
      cases peeled : (peel ivs l start step c).1 with
      | error err => exact ⟨.error err, fun _ => rfl⟩
      | ok pair =>
        obtain ⟨coeff, rest⟩ := pair
        have less := loopWeight_lt_of_peelsTo lighter ⟨l, start, step, coeff, c, rfl, peeled⟩
        obtain ⟨answer, same⟩ := @ih rest (by omega) (peel ivs l start step c).2
        exact ⟨answer.map _, fun more => congrArg (Option.map _) (same more)⟩
    | _ => exact exists_peelAll_of_loop? rfl (peelings + 1) c

/-- An index has an affine form if there are enough peelings. -/
theorem decompose_eq {offset : Expr} {c : Context} {answer : Except AffineError Affine}
    (peeled : (peelAll ivs (enoughPeelings c.forest ivs offset) offset c).1 = some answer) :
    (decompose ivs offset c).1 = answer := by
  rw [decompose, get_bind_apply]
  change (StateT.bind (peelAll ivs (enoughPeelings c.forest ivs offset) offset) _ c).1 = _
  rw [StateT.bind]
  generalize peelAll ivs (enoughPeelings c.forest ivs offset) offset c = p at peeled ⊢
  obtain ⟨_, c'⟩ := p
  cases peeled
  rfl

theorem loopWeight_le_enoughPeelings (F : Forest) (ivs : Variables) (offset : Expr) :
    offset.loopWeight (peelWeight F ivs) ≤ enoughPeelings F ivs offset := by
  have each : offset.Over (fun l => peelWeight F ivs l * 1 ≤
      Nat.pow (Expr.sizes (ivs.map (·.start)) + 1) F.loops.length) fun _ => True := by
    refine (Expr.over_true offset).mono (fun l _ => ?_) fun _ any => any
    rw [Nat.mul_one]
    exact Nat.pow_le_pow_right (Nat.succ_pos _) (headRank_le F l)
  have total := Expr.loopWeight_mul_le each
  rwa [Nat.mul_one] at total

/-- Peeling comes to an end, for the variables that are recognized in a well-formed function and for every index. A
    peeling takes a recurrence over some loop away and only brings in recurrences over loops with a header that strictly
    dominates the header of that loop. So there is no endless sequence of peelings, and the affine form of an index is
    what all its peelings give, however many more are allowed. -/
theorem peeling_ends (wf : f.WellFormed) (questions : List Question)
    (recognized : (recognizeAll (.asked f questions)).1 = ivs) :
    (∀ rest offset, PeelsTo ivs rest offset → ∃ l, offset.loop? = some l ∧
      ∀ m, headedBefore (.ofFunction f) m l = false →
        rest.recurrencesOver m + (if l = m then 1 else 0) ≤ offset.recurrencesOver m) ∧
    WellFounded (PeelsTo ivs) ∧
    ∀ (offset : Expr) (c : Context), c.forest = .ofFunction f →
      ∃ peelings answer, (∀ more, (peelAll ivs (peelings + more) offset c).1 = some answer) ∧
        (decompose ivs offset c).1 = answer := by
  subst recognized
  have starts : ∀ iv ∈ (recognizeAll (.asked f questions)).1,
      iv.start.Over (headedBefore (.ofFunction f) · iv.loop = true) fun _ => True :=
    fun iv member => over_start_of_recognized wf questions member
  generalize (recognizeAll (.asked f questions)).1 = ivs at starts ⊢
  have lighter := fun iv member => loopWeight_start_lt wf member (starts iv member)
  refine ⟨?_, ?_, fun offset c forest => ?_⟩
  · rintro rest _ ⟨l, start, step, coeff, c, rfl, peeled⟩
    exact ⟨l, rfl, fun m notBefore => recurrencesOver_peel starts peeled notBefore⟩
  · refine Subrelation.wf (fun {rest offset} peels => ?_)
      (InvImage.wf (Expr.loopWeight (peelWeight (.ofFunction f) ivs)) Nat.lt_wfRel.wf)
    exact loopWeight_lt_of_peelsTo lighter peels
  · have enough := loopWeight_le_enoughPeelings (.ofFunction f) ivs offset
    obtain ⟨answer, same⟩ := exists_peelAll (peelWeight_pos (.ofFunction f) ivs) lighter enough c
    refine ⟨_, answer, same, decompose_eq ?_⟩
    rw [forest]
    exact same 0

/-- Two loops one after the other; the second one starts where the first one ends. -/
def relay : Function where
  name := "relay"
  receiver := none
  types := []
  params := []
  free := []
  globals := []
  constants := [⟨.int 0, .basic .int⟩, ⟨.int 1, .basic .int⟩, ⟨.int 10, .basic .int⟩, ⟨.int 20, .basic .int⟩]
  blocks := [
    ⟨"entry", [], [1], [⟨.jump, none, 0⟩]⟩,
    ⟨"for.loop", [0, 2], [2, 3], [
      ⟨.phi [.const 0, .result ⟨2, 0⟩] "i", some ("t0", .basic .int), 0⟩,
      ⟨.binary (.compare .lt) (.result ⟨1, 0⟩) (.const 2), some ("t1", .basic .bool), 0⟩,
      ⟨.branch (.result ⟨1, 1⟩), none, 0⟩]⟩,
    ⟨"for.body", [1], [1], [
      ⟨.binary .add (.result ⟨1, 0⟩) (.const 1), some ("t2", .basic .int), 0⟩,
      ⟨.jump, none, 0⟩]⟩,
    ⟨"for.done", [1], [4], [⟨.jump, none, 0⟩]⟩,
    ⟨"for.loop", [3, 5], [5, 6], [
      ⟨.phi [.result ⟨1, 0⟩, .result ⟨5, 0⟩] "j", some ("t3", .basic .int), 0⟩,
      ⟨.binary (.compare .lt) (.result ⟨4, 0⟩) (.const 3), some ("t4", .basic .bool), 0⟩,
      ⟨.branch (.result ⟨4, 1⟩), none, 0⟩]⟩,
    ⟨"for.body", [4], [4], [
      ⟨.binary .add (.result ⟨4, 0⟩) (.const 1), some ("t5", .basic .int), 0⟩,
      ⟨.jump, none, 0⟩]⟩,
    ⟨"for.done", [4], [], [⟨.leave [], none, 0⟩]⟩]
  recover := none

theorem relay_wellFormed : relay.WellFormed :=
  ⟨by decide +kernel, by decide +kernel, by decide +kernel, by decide +kernel, by decide +kernel⟩

/-- The first loop is peeled, comes back with the start of the second one, and is peeled again. -/
theorem relay_peeled : ∃ first second peelings,
    (recognizeAll (.asked relay [])).1 = [first, second] ∧ second.start = first.recurrence ∧
    (∀ more, (peelAll [first, second] (peelings + more) (.recur 0 (.recur 1 (.const 7) (.const 3)) (.const 2))
      (.asked relay [])).1 = some (.ok ⟨[⟨first, 2⟩, ⟨second, 3⟩, ⟨first, -3⟩], 7⟩)) ∧
    (decompose [first, second] (.recur 0 (.recur 1 (.const 7) (.const 3)) (.const 2)) (.asked relay [])).1 =
      .ok ⟨[⟨first, 2⟩, ⟨second, 3⟩, ⟨first, -3⟩], 7⟩ := by
  have recognized : (recognizeAll (.asked relay [])).1 = [⟨⟨1, 0⟩, 0, .const 0, .const 1⟩,
      ⟨⟨4, 0⟩, 1, .recur 0 (.const 0) (.const 1), .const 1⟩] := by
    decide +kernel
  obtain ⟨_, _, ends⟩ := peeling_ends relay_wellFormed [] recognized
  obtain ⟨peelings, answer, same, found⟩ :=
    ends (.recur 0 (.recur 1 (.const 7) (.const 3)) (.const 2)) (.asked relay []) rfl
  have form : (decompose [⟨⟨1, 0⟩, 0, .const 0, .const 1⟩, ⟨⟨4, 0⟩, 1, .recur 0 (.const 0) (.const 1), .const 1⟩]
      (.recur 0 (.recur 1 (.const 7) (.const 3)) (.const 2)) (.asked relay [])).1 =
      .ok ⟨[⟨⟨⟨1, 0⟩, 0, .const 0, .const 1⟩, 2⟩,
        ⟨⟨⟨4, 0⟩, 1, .recur 0 (.const 0) (.const 1), .const 1⟩, 3⟩, ⟨⟨⟨1, 0⟩, 0, .const 0, .const 1⟩, -3⟩], 7⟩ := by
    decide +kernel
  obtain rfl := found.symm.trans form
  exact ⟨⟨⟨1, 0⟩, 0, .const 0, .const 1⟩, ⟨⟨4, 0⟩, 1, .recur 0 (.const 0) (.const 1), .const 1⟩, peelings, recognized,
    rfl, same, found⟩

end LoopConflict.Access
