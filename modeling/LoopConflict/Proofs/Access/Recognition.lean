import LoopConflict.Proofs.Access.Affine
import LoopConflict.Proofs.Access.Induction
import LoopConflict.Proofs.Evolution.Nests
import LoopConflict.Proofs.Loop.Numbering

/-!
Every affine index is recognised. The sum of multiples of the variables of loops inside of each other is a nest
(`upholds_affineIndex`). Each peeling divides the step of the innermost recurrence exactly and leaves the nest
around it (`upholds_peel_nest`), so the coefficients come out from the innermost loop outwards, and then the constant
(`upholds_peelAll_nest`).
-/
namespace LoopConflict.Access

open Loop (Forest LoopId)
open Program (Function Place)
open Evolution

/-- A multiple of an induction variable that starts at a constant and moves by a constant. -/
structure Multiple where
  phi : Place
  loop : LoopId
  start : Int64
  step : Int64
  coeff : Int64
  moves : step ≠ 0
  used : coeff ≠ 0
  /-- What the multiple moves by is a word. -/
  fits : Word.Fits (coeff.toInt * step.toInt)

namespace Multiple

variable (m : Multiple)

def iv : InductionVariable :=
  ⟨m.phi, m.loop, .const m.start, .const m.step⟩

def coefficient : Coefficient :=
  ⟨m.iv, m.coeff⟩

/-- The multiple as an expression. -/
def term : Query Expr := do
  let k ← Query.const m.coeff
  Query.product [k, m.iv.recurrence]

/-! ### Exact division -/

theorem toInt_scaled : (m.coeff * m.step).toInt = m.coeff.toInt * m.step.toInt := by
  rw [Int64.toInt_mul, Word.bmod_eq_self_iff]
  exact m.fits

theorem scaled_ne_zero : m.coeff * m.step ≠ 0 := by
  intro zero
  have product := m.toInt_scaled
  rw [zero, Int64.toInt_zero, eq_comm, Int.mul_eq_zero] at product
  exact product.elim (Word.toInt_ne_zero m.used) (Word.toInt_ne_zero m.moves)

theorem scaled_div : m.coeff * m.step / m.step = m.coeff := by
  rw [← Int64.toInt_inj]
  exact Word.toInt_div_of_mul_eq m.moves (by rw [m.toInt_scaled, Int.mul_comm]) (Word.toInt_bounds _).2

theorem scaled_mod : m.coeff * m.step % m.step = 0 :=
  (Word.mod_eq_zero_iff_dvd _ _).mpr (m.toInt_scaled ▸ Int.dvd_mul_left ..)

theorem coeff_eq_one (same : m.coeff * m.step = m.step) : m.coeff = 1 := by
  have product := m.toInt_scaled
  rw [same, eq_comm] at product
  exact Int64.toInt_inj.mp (Int.eq_one_of_mul_eq_self_left (Word.toInt_ne_zero m.moves) product)

/-- How the multiple evolves. -/
def line : Line :=
  ⟨m.loop, m.coeff * m.start, m.coeff * m.step, m.scaled_ne_zero⟩

end Multiple

variable {F : Forest} {ivs : Variables} {m : Multiple} {ms before after : List Multiple}

/-! ### Loops inside of each other -/

/-- Loops inside of each other, from the inside out. -/
structure InsideOut (F : Forest) (loops : List LoopId) : Prop where
  exist : loops ⊆ F.ids
  around : loops.Pairwise fun inner outer => F.containsLoop outer inner = true ∧ outer ≠ inner

theorem InsideOut.outwards {f : Function} (flow : f.Connected)
    (nested : InsideOut (.ofFunction f) (ms.map (·.loop))) : Outwards (.ofFunction f) (ms.map Multiple.line) := by
  have deeper {l m : LoopId} := Forest.depth_lt_of_containsLoop (l := l) (m := m) flow
  refine List.pairwise_map.mpr ((List.pairwise_map.mp nested.around).imp_of_mem ?_)
  intro inner outer isInner isOuter ⟨around, other⟩
  have innerExists := nested.exist (List.mem_map_of_mem isInner)
  have outerExists := nested.exist (List.mem_map_of_mem isOuter)
  have less := deeper outerExists innerExists around other
  refine ⟨less, Bool.eq_false_iff.mpr fun back => ?_⟩
  exact Nat.lt_asymm less (deeper innerExists outerExists back other.symm)

/-- There are enough peelings for all recurrences of a nest. -/
theorem length_le_enoughPeelings (F : Forest) (ivs : Variables) (k : Int64) (lines : List Line) :
    lines.length ≤ enoughPeelings F ivs (nest k lines) := by
  have counted : lines.length ≤ (nest k lines).size := by
    induction lines with
    | nil => exact Nat.zero_le _
    | cons r outer ih =>
      rw [nest, Expr.size, List.length_cons]
      omega
  exact Nat.le_trans counted (Nat.le_mul_of_pos_right _ (Nat.pow_pos (Nat.succ_pos _)))

/-! ### Building -/

/-- The sum of multiples of variables and of a constant, in the order in which they are given. -/
def affineIndex (before : List Multiple) (k : Int64) (after : List Multiple) : Query Expr := do
  let first ← before.mapM Multiple.term
  let c ← Query.const k
  let last ← after.mapM Multiple.term
  Query.sum (first ++ c :: last)

theorem upholds_term (m : Multiple) : Upholds (·.forest = F) m.term (· = m.line.expr) := by
  refine (upholds_const_eq m.coeff).bind_eq (upholds_combine (yields_product_recur ?_ m.scaled_ne_zero))
  simp [Expr.factorsOf, Expr.factors, Multiple.iv, Multiple.line, InductionVariable.recurrence]

theorem upholds_terms (ms : List Multiple) :
    Upholds (·.forest = F) (ms.mapM Multiple.term) (· = (ms.map Multiple.line).map Line.expr) := by
  induction ms with
  | nil => exact upholds_pure rfl
  | cons m ms ih =>
    rw [List.mapM_cons]
    exact (upholds_term m).bind_eq (ih.bind_eq (upholds_pure rfl))

theorem upholds_affineIndex (k : Int64) (order : (before ++ after).Perm ms)
    (outwards : Outwards F (ms.map Multiple.line)) : Upholds (·.forest = F) (affineIndex before k after)
      (· = nest (base k (ms.map Multiple.line)) (ms.map Multiple.line)) := by
  have alone (ms : List Multiple) := summandsOf_lines (List.Subset.refl ((ms.map Multiple.line).map Line.expr))
  refine (upholds_terms before).bind_eq ((upholds_const_eq k).bind_eq ((upholds_terms after).bind_eq ?_))
  refine upholds_combine (yields_sum_lines outwards ?_ ((order.map Multiple.line).map Line.expr))
  rw [Expr.summandsOf_append, Expr.summandsOf, alone, alone]
  simp [Expr.summands]

/-! ### Peeling -/

/-- The step of a multiple is divided by that of its variable. -/
theorem upholds_factor_scaled (m : Multiple) :
    Upholds (·.forest = F) (factor (.const m.step) (.const (m.coeff * m.step)) (.const 0))
      (· = some (.const m.coeff, .const 0)) := by
  rw [factor]
  split
  · rename_i one
    rw [Expr.const.inj one, Int64.mul_one]
    exact upholds_pure rfl
  · split
    · rename_i same
      rw [m.coeff_eq_one (Expr.const.inj same)]
      exact (upholds_const_eq 1).bind_eq (upholds_pure rfl)
    · have divisible : ¬ (m.step = 0 ∨ m.coeff = 0) := not_or.mpr ⟨m.moves, m.used⟩
      rw [if_neg m.scaled_ne_zero, Expr.const?, factorConst, m.scaled_div, m.scaled_mod, if_neg divisible]
      refine (upholds_const_eq m.coeff).bind_eq ((upholds_const_eq 0).bind_eq ?_)
      refine (upholds_combine (yields_sum_const (k := 0) ?_)).bind_eq (upholds_pure rfl)
      simp [Expr.summandsOf, Expr.summands]

theorem upholds_peel_nest (found : ivs.ofLoop? m.loop = some m.iv) (k : Int64) (outer : List Line) :
    Upholds (·.forest = F) (peel ivs m.loop (nest k outer) (.const (m.coeff * m.step)))
      (· = .ok (m.coefficient, nest (k - m.coeff * m.start) outer)) := by
  unfold peel
  rw [found]
  dsimp only
  split
  · -- The recurrence is that of the variable, which starts at a constant, so nothing is around it.
    rename_i isVariable
    have same : m.iv.recurrence = .recur m.loop (nest k outer) (.const (m.coeff * m.step)) := by
      simpa using List.find?_some isVariable
    obtain ⟨_, starts, steps⟩ := Expr.recur.inj same
    obtain ⟨rfl, rfl⟩ := eq_const_of_nest_eq starts.symm
    have one := m.coeff_eq_one (Expr.const.inj steps).symm
    refine (upholds_const_eq 0).bind_eq (upholds_pure ?_)
    simp [Multiple.coefficient, one, nest]
  · refine (upholds_const_eq 0).bind_eq ((upholds_factor_scaled m).bind_eq ?_)
    dsimp only
    rw [if_pos (by simp [Expr.isZero, Expr.const?])]
    refine (upholds_combine (yields_product_const (k := m.coeff * m.start) ?_)).bind_eq
      ((upholds_difference_nest k _ outer).bind_eq (upholds_pure rfl))
    simp [Expr.factorsOf, Expr.factors, Multiple.iv]

theorem upholds_peelAll_nest (known : ∀ m ∈ ms, ivs.ofLoop? m.loop = some m.iv) (k : Int64) {peelings : Nat}
    (enough : ms.length ≤ peelings) :
    Upholds (·.forest = F) (peelAll ivs peelings (nest (base k (ms.map Multiple.line)) (ms.map Multiple.line)))
      (· = some (.ok ⟨ms.map Multiple.coefficient, k⟩)) := by
  induction ms generalizing peelings with
  | nil => cases peelings <;> exact upholds_pure rfl
  | cons m ms ih =>
    obtain ⟨here, known⟩ := List.forall_mem_cons.mp known
    cases peelings with
    | zero => cases enough
    | succ peelings =>
      have next : base k ((m :: ms).map Multiple.line) - m.coeff * m.start = base k (ms.map Multiple.line) := by
        simp only [base, Multiple.line, List.map_cons, List.foldr_cons]
        grind
      have peeled := upholds_peel_nest (F := F) here (base k ((m :: ms).map Multiple.line)) (ms.map Multiple.line)
      rw [next] at peeled
      exact peeled.bind_eq ((ih known (Nat.le_of_succ_le_succ enough)).bind_eq (upholds_pure rfl))

/-- Every sum of multiples of the variables of loops inside of each other and of a constant is recognised: its affine
    form has these coefficients, from the innermost loop outwards, and this constant. -/
theorem decompose_affineIndex {f : Function} {c : Context} (flow : f.Connected) (forest : c.forest = .ofFunction f)
    (nested : InsideOut (.ofFunction f) (ms.map (·.loop))) (known : ∀ m ∈ ms, ivs.ofLoop? m.loop = some m.iv)
    (order : (before ++ after).Perm ms) (k : Int64) :
    ((affineIndex before k after >>= decompose ivs) c).1 = .ok ⟨ms.map Multiple.coefficient, k⟩ := by
  have enough : ms.length ≤ enoughPeelings (.ofFunction f) ivs (nest (base k (ms.map Multiple.line)) (ms.map Multiple.line)) := by
    simpa using length_le_enoughPeelings (.ofFunction f) ivs (base k (ms.map Multiple.line)) (ms.map Multiple.line)
  have recognised : Upholds (·.forest = .ofFunction f) (affineIndex before k after >>= decompose ivs)
      (· = .ok ⟨ms.map Multiple.coefficient, k⟩) := by
    refine (upholds_affineIndex k order (nested.outwards flow)).bind_eq (upholds_get fun c isForest => ?_)
    rw [isForest]
    exact (upholds_peelAll_nest known k enough).bind_eq (upholds_pure rfl)
  exact (recognised c forest).2

/-- Three loops inside of each other; the middle one counts down. -/
def tower : Function where
  name := "tower"
  receiver := none
  types := []
  params := []
  free := []
  globals := []
  constants := [⟨.int 5, .basic .int⟩, ⟨.int 50, .basic .int⟩, ⟨.int 20, .basic .int⟩, ⟨.int 0, .basic .int⟩,
    ⟨.int 1, .basic .int⟩, ⟨.int 2, .basic .int⟩, ⟨.int 9, .basic .int⟩, ⟨.int 4, .basic .int⟩, ⟨.int 3, .basic .int⟩]
  blocks := [
    ⟨"entry", [], [1], [⟨.jump, none, 0⟩]⟩,
    ⟨"for.loop", [0, 7], [2, 8], [
      ⟨.phi [.const 0, .result ⟨7, 0⟩] "i", some ("t0", .basic .int), 0⟩,
      ⟨.binary (.compare .lt) (.result ⟨1, 0⟩) (.const 1), some ("t1", .basic .bool), 0⟩,
      ⟨.branch (.result ⟨1, 1⟩), none, 0⟩]⟩,
    ⟨"for.body", [1], [3], [⟨.jump, none, 0⟩]⟩,
    ⟨"for.loop", [2, 6], [4, 7], [
      ⟨.phi [.const 2, .result ⟨6, 0⟩] "j", some ("t2", .basic .int), 0⟩,
      ⟨.binary (.compare .gt) (.result ⟨3, 0⟩) (.const 3), some ("t3", .basic .bool), 0⟩,
      ⟨.branch (.result ⟨3, 1⟩), none, 0⟩]⟩,
    ⟨"for.body", [3], [5], [⟨.jump, none, 0⟩]⟩,
    ⟨"for.loop", [4, 5], [5, 6], [
      ⟨.phi [.const 4, .result ⟨5, 1⟩] "k", some ("t4", .basic .int), 0⟩,
      ⟨.binary .add (.result ⟨5, 0⟩) (.const 5), some ("t5", .basic .int), 0⟩,
      ⟨.binary (.compare .lt) (.result ⟨5, 1⟩) (.const 6), some ("t6", .basic .bool), 0⟩,
      ⟨.branch (.result ⟨5, 2⟩), none, 0⟩]⟩,
    ⟨"for.done", [5], [3], [
      ⟨.binary .sub (.result ⟨3, 0⟩) (.const 7), some ("t7", .basic .int), 0⟩,
      ⟨.jump, none, 0⟩]⟩,
    ⟨"for.done", [3], [1], [
      ⟨.binary .add (.result ⟨1, 0⟩) (.const 8), some ("t8", .basic .int), 0⟩,
      ⟨.jump, none, 0⟩]⟩,
    ⟨"for.done", [1], [], [⟨.leave [], none, 0⟩]⟩]
  recover := none

/-- Multiples of the three variables, from the inside out. The step of the second one is the least word. -/
def tower.multiples : List Multiple :=
  [⟨⟨5, 0⟩, 2, 1, 2, 3, by decide, by decide, by decide⟩,
    ⟨⟨3, 0⟩, 1, 20, -4, 2305843009213693952, by decide, by decide, by decide⟩,
    ⟨⟨1, 0⟩, 0, 5, 3, -1, by decide, by decide, by decide⟩]

theorem tower_recognised : ∃ i j k, inductionVariables tower = [i, j, k] ∧
    (i.recurrence, j.recurrence, k.recurrence) =
      (.recur 0 (.const 5) (.const 3), .recur 1 (.const 20) (.const (-4)), .recur 2 (.const 1) (.const 2)) ∧
    InsideOut (.ofFunction tower) (tower.multiples.map (·.loop)) ∧
    ((affineIndex (tower.multiples.drop 1) (-9) (tower.multiples.take 1) >>= decompose [i, j, k])
      (.asked tower [])).1 = .ok ⟨[⟨k, 3⟩, ⟨j, 2305843009213693952⟩, ⟨i, -1⟩], -9⟩ := by
  have chosen : inductionVariables tower = [⟨⟨1, 0⟩, 0, .const 5, .const 3⟩, ⟨⟨3, 0⟩, 1, .const 20, .const (-4)⟩,
      ⟨⟨5, 0⟩, 2, .const 1, .const 2⟩] := by decide +kernel
  have nested : InsideOut (.ofFunction tower) (tower.multiples.map (·.loop)) := ⟨by decide +kernel, by decide +kernel⟩
  have flow : tower.Connected := ⟨by decide +kernel, by decide +kernel⟩
  refine ⟨_, _, _, chosen, rfl, nested, ?_⟩
  exact decompose_affineIndex flow rfl nested (by decide +kernel) List.perm_append_comm (-9)

end LoopConflict.Access
