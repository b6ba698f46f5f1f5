import LoopConflict.Evolution.TripCount
import LoopConflict.Proofs.Execution.Run
import LoopConflict.Proofs.Word

/-!
The first failure of a test. In each iteration of a loop a recurrence with constant start and step is compared to
a constant, and the first failure is the first iteration in which the comparison does not hold. What is computed
with words is that iteration exactly if nothing wraps around that matters (`firstFailure_right_iff`). Where
nothing wraps around at all, a test without a first failure never fails (`ExitTest.stays_of_failure?_eq_none`).
-/
namespace LoopConflict

open Program (Comparison)

namespace Word

/-- A quotient without a rest is exact unless it is negative. -/
theorem mul_toInt_div {d a : Int64} (nonzero : a ≠ 0) (divides : d % a = 0) (notNegative : 0 ≤ d / a) :
    a.toInt * (d / a).toInt = d.toInt := by
  obtain ⟨x, multiple⟩ := (mod_eq_zero_iff_dvd d a).mp divides
  have divisor := toInt_ne_zero nonzero
  have small : x ≤ 9223372036854775807 := by
    by_contra large
    have range := toInt_bounds d
    have size : d.toInt.natAbs = a.toInt.natAbs * x.natAbs := by rw [multiple, Int.natAbs_mul]
    have unit : a.toInt.natAbs = 1 := by
      by_contra more
      have := Nat.mul_le_mul_right x.natAbs (show 2 ≤ a.toInt.natAbs by omega)
      omega
    rw [unit, Nat.one_mul] at size
    -- Only the least word divided by `-1` has such a quotient, and that wraps around.
    obtain rfl : d = Int64.minValue := Int64.toInt_inj.mp (by rw [toInt_minValue_eq]; omega)
    obtain rfl : a = -1 := by
      refine Int64.toInt_inj.mp ?_
      rcases Int.natAbs_eq_iff.mp unit with one | minusOne
      · rw [one, toInt_minValue_eq] at multiple
        omega
      · exact minusOne
    exact absurd notNegative (by decide)
  rw [toInt_div_of_mul_eq nonzero multiple.symm small]
  exact multiple.symm

theorem eq_maxValue_of_not_fits {a : Int64} (wraps : ¬ Fits (a.toInt + 1)) : a = Int64.maxValue := by
  have range := toInt_bounds a
  rw [← Int64.toInt_inj, Int64.toInt_maxValue]
  unfold Fits at wraps
  omega

theorem eq_minValue_of_not_fits {a : Int64} (wraps : ¬ Fits (a.toInt - 1)) : a = Int64.minValue := by
  have range := toInt_bounds a
  rw [← Int64.toInt_inj, toInt_minValue_eq]
  unfold Fits at wraps
  omega

end Word

namespace Evolution

/-! ### Counting in steps -/

/-- `n` is the first number from zero on of which the condition does not hold. -/
structure FirstFailing (P : Int → Prop) (n : Int) : Prop where
  notNegative : 0 ≤ n
  fails : ¬ P n
  before : ∀ j, 0 ≤ j → j < n → P j

variable {P Q : Int → Prop}

theorem firstFailing_congr (same : ∀ k, P k ↔ Q k) {n : Int} : FirstFailing P n ↔ FirstFailing Q n := by
  rw [show P = Q from funext fun k => propext (same k)]

theorem firstFailing_zero_iff : FirstFailing P 0 ↔ ¬ P 0 :=
  ⟨(·.fails), fun fails => ⟨Int.le_refl 0, fails, fun _ low high => by omega⟩⟩

theorem not_firstFailing_of_nonpos {n : Int} (low : n ≤ 0) (first : P 0) : ¬ FirstFailing P n := by
  intro failing
  obtain rfl : n = 0 := Int.le_antisymm low failing.notNegative
  exact failing.fails first

theorem toInt_ceilDiv (a b : Int64) {m : Int64} (positive : 0 < m.toInt) :
    (Word.ceilDiv (b - a) m).toInt = ((b.toInt - a.toInt + m.toInt - 1).bmod (2 ^ 64)).tdiv m.toInt := by
  have sum : b - a + m - 1 = Int64.ofInt (b.toInt - a.toInt + m.toInt - 1) := by
    simp only [Int64.ofInt_sub, Int64.ofInt_add, Int64.ofInt_toInt]
    rfl
  have other : m ≠ -1 := by
    rintro rfl
    exact absurd positive (by decide)
  rw [Word.ceilDiv, Int64.toInt_div_of_ne_right _ _ other, sum, Int64.toInt_ofInt]
  rfl

/-- A quotient that is rounded up tells how many steps it takes to cover the distance, unless rounding up wraps
    around. -/
theorem ceilDiv_first_iff {a b m : Int64} (less : a.toInt < b.toInt) (positive : 0 < m.toInt) :
    FirstFailing (fun k => m.toInt * k < b.toInt - a.toInt) (Word.ceilDiv (b - a) m).toInt ↔
      Word.Fits (b.toInt - a.toInt + m.toInt - 1) := by
  rw [toInt_ceilDiv a b positive]
  by_cases fits : Word.Fits (b.toInt - a.toInt + m.toInt - 1)
  · refine iff_of_true ?_ fits
    rw [(Word.bmod_eq_self_iff _).mpr fits, Int.tdiv_eq_ediv_of_nonneg (by omega)]
    have far : 0 < b.toInt - a.toInt := by omega
    generalize b.toInt - a.toInt = d at *
    generalize m.toInt = n at *
    have lower := Int.mul_ediv_self_le (x := d + n - 1) (k := n) (by omega)
    have upper := Int.lt_mul_ediv_self_add (x := d + n - 1) (k := n) positive
    refine ⟨Int.ediv_nonneg (by omega) (by omega), by omega, fun j _ less => ?_⟩
    have smaller : n * (j + 1) ≤ n * ((d + n - 1) / n) := Int.mul_le_mul_of_nonneg_left (by omega) (by omega)
    rw [Int.mul_add] at smaller
    omega
  · refine iff_of_false (not_firstFailing_of_nonpos ?_ (by simpa using less)) fits
    -- The sum has lost the number of words, so that less than one step is left.
    have rangeA := Word.toInt_bounds a
    have rangeB := Word.toInt_bounds b
    have rangeM := Word.toInt_bounds m
    have small : (b.toInt - a.toInt + m.toInt - 1).bmod (2 ^ 64) < m.toInt := by
      have low := Int.le_bmod (x := b.toInt - a.toInt + m.toInt - 1) (m := 2 ^ 64) (by decide)
      have high := Int.bmod_lt (x := b.toInt - a.toInt + m.toInt - 1) (m := 2 ^ 64) (by decide)
      obtain ⟨k, wrapped⟩ := Word.exists_bmod_eq (b.toInt - a.toInt + m.toInt - 1)
      unfold Word.Fits at fits
      omega
    generalize (b.toInt - a.toInt + m.toInt - 1).bmod (2 ^ 64) = w at small
    rcases Int.le_total 0 w with up | down
    · exact Int.le_of_eq (Int.tdiv_eq_zero_of_lt up small)
    · have opposite := Int.tdiv_nonneg (a := -w) (b := m.toInt) (by omega) (by omega)
      rw [Int.neg_tdiv] at opposite
      omega

/-- The steps to cover a distance can be counted: rounding up does not wrap around, or the step is the least
    word, which has no negation, and one step is enough. -/
def Countable (distance : Int) (step : Int64) : Prop :=
  Word.Fits (distance + step.toInt.natAbs - 1) ∨ distance = 1 ∧ step = Int64.minValue

instance (distance : Int) (step : Int64) : Decidable (Countable distance step) :=
  inferInstanceAs (Decidable (_ ∨ _ ∧ _))

/-- The steps down from `b` to `a` if each is the least word: the count is right for a distance of one only. -/
theorem ceilDiv_minValue_first_iff {a b : Int64} (less : a.toInt < b.toInt) :
    FirstFailing (fun k => a.toInt < b.toInt + Int64.minValue.toInt * k)
      (Word.ceilDiv (b - a) (-Int64.minValue)).toInt ↔ b.toInt - a.toInt = 1 := by
  have rangeA := Word.toInt_bounds a
  have rangeB := Word.toInt_bounds b
  by_cases one : b.toInt - a.toInt = 1
  · refine iff_of_true ?_ one
    have same : b - a = 1 := by
      rw [← Int64.toInt_inj, Int64.toInt_sub, one]
      rfl
    rw [same, show (Word.ceilDiv 1 (-Int64.minValue)).toInt = 1 by decide]
    refine ⟨by decide, ?_, fun j low high => ?_⟩
    · rw [Word.toInt_minValue_eq]
      omega
    · obtain rfl : j = 0 := by omega
      simpa using less
  · refine iff_of_false (not_firstFailing_of_nonpos (Int.le_of_eq ?_) (by simpa using less)) one
    have sum : b - a + -Int64.minValue - 1 = Int64.ofInt (b.toInt - a.toInt + Int64.minValue.toInt - 1) := by
      simp only [Int64.ofInt_sub, Int64.ofInt_add, Int64.ofInt_toInt]
      rfl
    obtain ⟨k, wrapped⟩ := Word.exists_bmod_eq (b.toInt - a.toInt + Int64.minValue.toInt - 1)
    have small : ((b.toInt - a.toInt + Int64.minValue.toInt - 1).bmod (2 ^ 64)).natAbs < 9223372036854775808 := by
      have low := Int.le_bmod (x := b.toInt - a.toInt + Int64.minValue.toInt - 1) (m := 2 ^ 64) (by decide)
      have high := Int.bmod_lt (x := b.toInt - a.toInt + Int64.minValue.toInt - 1) (m := 2 ^ 64) (by decide)
      rw [Word.toInt_minValue_eq] at *
      omega
    rw [Word.ceilDiv, Int64.toInt_div_of_ne_right _ _ (by decide), sum, Int64.toInt_ofInt, ← Int.natAbs_eq_zero,
      Int.natAbs_tdiv]
    exact Nat.div_eq_of_lt small

variable {start step limit n : Int64}

/-- Counting up to a limit. -/
theorem firstAtLeast_iff (moves : step ≠ 0) (found : (if limit ≤ start then some 0 else if step < 0 then none
      else some (Word.ceilDiv (limit - start) step)) = some n) :
    FirstFailing (fun k => start.toInt + step.toInt * k < limit.toInt) n.toInt ↔
      (0 < limit.toInt - start.toInt → Countable (limit.toInt - start.toInt) step) := by
  have nonzero := Word.toInt_ne_zero moves
  simp only [Int64.le_iff_toInt_le, Int64.lt_iff_toInt_lt, Int64.toInt_zero] at found
  split at found
  · cases found
    rw [Int64.toInt_zero, firstFailing_zero_iff]
    exact iff_of_true (by omega) fun far => by omega
  · split at found
    · cases found
    · cases found
      rw [firstFailing_congr (Q := fun k => step.toInt * k < limit.toInt - start.toInt) fun k => by omega,
        ceilDiv_first_iff (by omega) (by omega)]
      have up : step ≠ Int64.minValue := by
        rintro rfl
        exact absurd ‹¬ Int64.minValue.toInt < 0› (by decide)
      simp only [Countable, up, and_false, or_false]
      unfold Word.Fits
      omega

/-- Counting down to a limit. -/
theorem firstAtMost_iff (moves : step ≠ 0) (found : (if start ≤ limit then some 0 else if 0 < step then none
      else some (Word.ceilDiv (start - limit) (-step))) = some n) :
    FirstFailing (fun k => limit.toInt < start.toInt + step.toInt * k) n.toInt ↔
      (0 < start.toInt - limit.toInt → Countable (start.toInt - limit.toInt) step) := by
  have nonzero := Word.toInt_ne_zero moves
  simp only [Int64.le_iff_toInt_le, Int64.lt_iff_toInt_lt, Int64.toInt_zero] at found
  split at found
  · cases found
    rw [Int64.toInt_zero, firstFailing_zero_iff]
    exact iff_of_true (by omega) fun far => by omega
  · split at found
    · cases found
    · cases found
      by_cases least : step = Int64.minValue
      · subst least
        rw [ceilDiv_minValue_first_iff (by omega)]
        simp only [Countable, Word.Fits, Word.toInt_minValue_eq, and_true]
        omega
      · have opposite := Word.toInt_neg_of_ne least
        rw [firstFailing_congr (Q := fun k => (-step).toInt * k < start.toInt - limit.toInt)
          fun k => by rw [opposite, Int.neg_mul]; omega, ceilDiv_first_iff (by omega) (by omega)]
        simp only [Countable, least, and_false, or_false]
        unfold Word.Fits
        omega

/-- Counting up to the word after a limit. -/
theorem firstAbove_iff (moves : step ≠ 0) (found : (if limit + 1 ≤ start then some 0 else if step < 0 then none
      else some (Word.ceilDiv (limit + 1 - start) step)) = some n) :
    FirstFailing (fun k => start.toInt + step.toInt * k ≤ limit.toInt) n.toInt ↔ Word.Fits (limit.toInt + 1) ∧
      (0 < limit.toInt + 1 - start.toInt → Countable (limit.toInt + 1 - start.toInt) step) := by
  by_cases fits : Word.Fits (limit.toInt + 1)
  · have exact := Word.toInt_add_one fits
    rw [firstFailing_congr (Q := fun k => start.toInt + step.toInt * k < (limit + 1).toInt) fun k => by omega,
      firstAtLeast_iff moves found, exact]
    exact (and_iff_right fits).symm
  · -- The limit is the greatest word and the one after it the least, so that the test seems to fail at once.
    have range := Int64.le_iff_toInt_le.mp (Int64.le_maxValue start)
    obtain rfl : limit = Int64.maxValue := Word.eq_maxValue_of_not_fits fits
    rw [if_pos (show Int64.maxValue + 1 ≤ start from Int64.minValue_le start)] at found
    cases found
    have stays : start.toInt + step.toInt * 0 ≤ Int64.maxValue.toInt := by simpa using range
    exact iff_of_false (not_firstFailing_of_nonpos (by simp) stays) fun exact => fits exact.1

/-- Counting down to the word before a limit. -/
theorem firstBelow_iff (moves : step ≠ 0) (found : (if start ≤ limit - 1 then some 0 else if 0 < step then none
      else some (Word.ceilDiv (start - (limit - 1)) (-step))) = some n) :
    FirstFailing (fun k => limit.toInt ≤ start.toInt + step.toInt * k) n.toInt ↔ Word.Fits (limit.toInt - 1) ∧
      (0 < start.toInt - (limit.toInt - 1) → Countable (start.toInt - (limit.toInt - 1)) step) := by
  by_cases fits : Word.Fits (limit.toInt - 1)
  · have exact := Word.toInt_sub_one fits
    rw [firstFailing_congr (Q := fun k => (limit - 1).toInt < start.toInt + step.toInt * k) fun k => by omega,
      firstAtMost_iff moves found, exact]
    exact (and_iff_right fits).symm
  · have range := Int64.le_iff_toInt_le.mp (Int64.minValue_le start)
    obtain rfl : limit = Int64.minValue := Word.eq_minValue_of_not_fits fits
    rw [if_pos (show start ≤ Int64.minValue - 1 from Int64.le_maxValue start)] at found
    cases found
    have stays : Int64.minValue.toInt ≤ start.toInt + step.toInt * 0 := by simpa using range
    exact iff_of_false (not_firstFailing_of_nonpos (by simp) stays) fun exact => fits exact.1

/-- Counting to the limit exactly. -/
theorem firstEqual_iff (moves : step ≠ 0) (found : (if (limit - start) % step = 0 ∧ 0 ≤ (limit - start) / step
      then some ((limit - start) / step) else none) = some n) :
    FirstFailing (fun k => start.toInt + step.toInt * k ≠ limit.toInt) n.toInt ↔
      Word.Fits (limit.toInt - start.toInt) := by
  have nonzero := Word.toInt_ne_zero moves
  obtain ⟨⟨divides, notNegative⟩, same⟩ := Option.ite_none_right_eq_some.mp found
  cases same
  have multiple := Word.mul_toInt_div moves divides notNegative
  rw [Int64.le_iff_toInt_le, Int64.toInt_zero] at notNegative
  generalize ((limit - start) / step).toInt = k at multiple notNegative
  constructor
  · intro failing
    have reached : start.toInt + step.toInt * k = limit.toInt := not_not.mp failing.fails
    rw [show limit.toInt - start.toInt = (limit - start).toInt by omega]
    exact Word.toInt_bounds _
  · intro fits
    rw [Int64.toInt_sub, (Word.bmod_eq_self_iff _).mpr fits] at multiple
    refine ⟨notNegative, by omega, fun j _ less same => ?_⟩
    have := Int.eq_of_mul_eq_mul_left nonzero (show step.toInt * j = step.toInt * k by omega)
    omega

/-- Moving away from the limit. -/
theorem firstUnequal (moves : step ≠ 0) :
    FirstFailing (fun k => start.toInt + step.toInt * k = limit.toInt) (if start = limit then 1 else 0 : Int64).toInt := by
  have nonzero := Word.toInt_ne_zero moves
  split
  · rename_i same
    subst same
    refine ⟨by decide, by simpa using nonzero, fun j low high => ?_⟩
    obtain rfl : j = 0 := by
      rw [Int64.toInt_one] at high
      omega
    simp
  · rename_i different
    rw [Int64.toInt_zero, firstFailing_zero_iff]
    intro same
    exact different (Int64.toInt_inj.mp (by simpa using same))

/-- A count up that has no answer goes down. -/
theorem lt_of_firstAtLeast_eq_none (none : (if limit ≤ start then some 0 else if step < 0 then none
      else some (Word.ceilDiv (limit - start) step)) = none) {k : Int} (low : 0 ≤ k) :
    start.toInt + step.toInt * k < limit.toInt := by
  simp only [Int64.le_iff_toInt_le, Int64.lt_iff_toInt_lt, Int64.toInt_zero] at none
  split at none
  · cases none
  · split at none
    · have := Int.mul_nonpos_of_nonpos_of_nonneg (a := step.toInt) (by omega) low
      omega
    · cases none

/-- A count down that has no answer goes up. -/
theorem lt_of_firstAtMost_eq_none (none : (if start ≤ limit then some 0 else if 0 < step then none
      else some (Word.ceilDiv (start - limit) (-step))) = none) {k : Int} (low : 0 ≤ k) :
    limit.toInt < start.toInt + step.toInt * k := by
  simp only [Int64.le_iff_toInt_le, Int64.lt_iff_toInt_lt, Int64.toInt_zero] at none
  split at none
  · cases none
  · split at none
    · have := Int.mul_nonneg (a := step.toInt) (by omega) low
      omega
    · cases none

/-- A count to the limit that has no answer steps over it or goes away from it. -/
theorem ne_of_firstEqual_eq_none (moves : step ≠ 0) (distance : Word.Fits (limit.toInt - start.toInt))
    (room : Word.Fits ((limit.toInt - start.toInt).natAbs + step.toInt.natAbs - 1))
    (none : (if (limit - start) % step = 0 ∧ 0 ≤ (limit - start) / step then some ((limit - start) / step) else none) =
      none) {k : Int} (low : 0 ≤ k) : start.toInt + step.toInt * k ≠ limit.toInt := by
  intro reached
  have nonzero := Word.toInt_ne_zero moves
  have exact : (limit - start).toInt = limit.toInt - start.toInt := by
    rw [Int64.toInt_sub, Word.bmod_eq_self_iff]
    exact distance
  have multiple : step.toInt * k = (limit - start).toInt := by omega
  have small : k ≤ 9223372036854775807 := by
    have size : (limit - start).toInt.natAbs = step.toInt.natAbs * k.natAbs := by rw [← multiple, Int.natAbs_mul]
    have := Nat.le_mul_of_pos_left k.natAbs (n := step.toInt.natAbs) (by omega)
    unfold Word.Fits at room
    omega
  have quotient := Word.toInt_div_of_mul_eq moves multiple small
  refine absurd none (Option.ne_none_iff_isSome.mpr ?_)
  have notNegative : 0 ≤ (limit - start) / step := by
    rw [Int64.le_iff_toInt_le, quotient]
    exact low
  rw [if_pos ⟨(Word.mod_eq_zero_iff_dvd _ _).mpr ⟨k, multiple.symm⟩, notNegative⟩]
  rfl

/-! ### Tests -/

/-- A test of a recurrence with constant start and step against a constant. -/
structure ExitTest where
  comparison : Comparison
  start : Int64
  step : Int64
  limit : Int64
deriving DecidableEq, Repr

namespace ExitTest

/-- The value that is tested in an iteration. -/
def tested (t : ExitTest) (k : Int) : Int :=
  t.start.toInt + t.step.toInt * k

/-- The test says to stay in an iteration. -/
def stays (t : ExitTest) (k : Int) : Bool :=
  t.comparison.holds (t.tested k) t.limit.toInt

/-- The first iteration in which the test says to leave. -/
def failure? (t : ExitTest) : Option Int64 :=
  firstFailure t.comparison t.start t.step t.limit

/-- The limit as it is for a strict comparison. -/
def strictLimit (t : ExitTest) : Int :=
  match t.comparison with
  | .le => t.limit.toInt + 1
  | .ge => t.limit.toInt - 1
  | _ => t.limit.toInt

/-- Nothing wraps around while the first failure is computed. -/
def Fits (t : ExitTest) : Prop :=
  Word.Fits t.strictLimit ∧ Word.Fits (t.strictLimit - t.start.toInt) ∧
    Word.Fits ((t.strictLimit - t.start.toInt).natAbs + t.step.toInt.natAbs - 1)

instance (t : ExitTest) : Decidable t.Fits :=
  inferInstanceAs (Decidable (_ ∧ _ ∧ _))

/-- How far it is from the start to the limit, in the direction in which the test can be failed. -/
def distance (t : ExitTest) : Int :=
  match t.comparison with
  | .gt | .ge => t.start.toInt - t.strictLimit
  | _ => t.strictLimit - t.start.toInt

/-- Nothing wraps around that the first failure depends on. A test that fails at once does not count, and one for
    equality is never computed with. -/
def Exact (t : ExitTest) : Prop :=
  match t.comparison with
  | .eq => True
  | .ne => Word.Fits t.distance
  | _ => Word.Fits t.strictLimit ∧ (0 < t.distance → Countable t.distance t.step)

instance : (t : ExitTest) → Decidable t.Exact
  | ⟨.eq, _, _, _⟩ => inferInstanceAs (Decidable True)
  | ⟨.ne, _, _, _⟩ => inferInstanceAs (Decidable (Word.Fits _))
  | ⟨.lt, _, _, _⟩ | ⟨.le, _, _, _⟩ | ⟨.gt, _, _, _⟩ | ⟨.ge, _, _, _⟩ => inferInstanceAs (Decidable (_ ∧ (_ → _)))

variable {t : ExitTest}

theorem Fits.exact (fits : t.Fits) : t.Exact := by
  obtain ⟨c, start, step, limit⟩ := t
  obtain ⟨limitFits, distance, room⟩ := fits
  cases c with
  | eq => trivial
  | ne => exact distance
  | _ =>
    refine ⟨limitFits, fun far => .inl ?_⟩
    simp only [ExitTest.distance, strictLimit] at *
    unfold Word.Fits at *
    omega

/-- What is computed is the first iteration in which the test says to leave, exactly if nothing wraps around that it
    depends on. -/
theorem failure?_first_iff {n : Int64} (found : t.failure? = some n) :
    FirstFailing (t.stays · = true) n.toInt ↔ t.Exact := by
  obtain ⟨c, start, step, limit⟩ := t
  unfold failure? firstFailure at found
  dsimp only at found
  split at found
  · cases found
  · rename_i moves
    dsimp only [stays, tested]
    cases c with
    | lt =>
      simp only [Comparison.holds, decide_eq_true_eq]
      rw [firstAtLeast_iff moves found]
      exact (and_iff_right (Word.toInt_bounds limit)).symm
    | gt =>
      simp only [Comparison.holds, decide_eq_true_eq]
      rw [firstAtMost_iff moves found]
      exact (and_iff_right (Word.toInt_bounds limit)).symm
    | le =>
      simp only [Comparison.holds, decide_eq_true_eq]
      exact firstAbove_iff moves found
    | ge =>
      simp only [Comparison.holds, decide_eq_true_eq]
      exact firstBelow_iff moves found
    | ne =>
      simp only [Comparison.holds, bne_iff_ne]
      exact firstEqual_iff moves found
    | eq =>
      simp only [Comparison.holds, beq_iff_eq]
      cases found
      exact iff_of_true (firstUnequal moves) trivial

theorem failure?_spec (fits : t.Fits) {n : Int64} (found : t.failure? = some n) :
    0 ≤ n.toInt ∧ t.stays n.toInt = false ∧ ∀ j : Int, 0 ≤ j → j < n.toInt → t.stays j = true := by
  obtain ⟨low, fails, before⟩ := (failure?_first_iff found).mpr fits.exact
  exact ⟨low, Bool.eq_false_iff.mpr fails, before⟩

/-- Where nothing wraps around, a test that has no first failure never says to leave. -/
theorem stays_of_failure?_eq_none (fits : t.Fits) (moves : t.step ≠ 0) (none : t.failure? = none) {k : Int}
    (low : 0 ≤ k) : t.stays k = true := by
  obtain ⟨c, start, step, limit⟩ := t
  obtain ⟨limitFits, distance, room⟩ := fits
  unfold failure? firstFailure at none
  dsimp only [strictLimit, stays, tested] at *
  rw [if_neg moves] at none
  cases c with
  | lt => simpa [Comparison.holds] using lt_of_firstAtLeast_eq_none none low
  | gt => simpa [Comparison.holds] using lt_of_firstAtMost_eq_none none low
  | le =>
    have := lt_of_firstAtLeast_eq_none none low
    rw [Word.toInt_add_one limitFits] at this
    simpa [Comparison.holds] using Int.lt_add_one_iff.mp this
  | ge =>
    have := lt_of_firstAtMost_eq_none none low
    rw [Word.toInt_sub_one limitFits] at this
    simpa [Comparison.holds] using Int.sub_one_lt_iff.mp this
  | ne => simpa [Comparison.holds] using ne_of_firstEqual_eq_none moves distance room none low
  | eq => cases none

end ExitTest

/-- An answer is the first number at which the comparison does not hold, exactly if nothing wraps around that it
    depends on. -/
theorem firstFailure_right_iff (c : Comparison) (start step limit : Int64) :
    (∀ n, firstFailure c start step limit = some n →
      0 ≤ n.toInt ∧ c.holds (start.toInt + step.toInt * n.toInt) limit.toInt = false ∧
        ∀ j : Int, 0 ≤ j → j < n.toInt → c.holds (start.toInt + step.toInt * j) limit.toInt = true) ↔
      firstFailure c start step limit = none ∨ (ExitTest.mk c start step limit).Exact := by
  have exactly {n : Int64} := ExitTest.failure?_first_iff (t := ⟨c, start, step, limit⟩) (n := n)
  constructor
  · intro right
    cases found : firstFailure c start step limit with
    | none => exact .inl rfl
    | some n =>
      obtain ⟨low, fails, before⟩ := right n found
      exact .inr ((exactly found).mp ⟨low, Bool.eq_false_iff.mp fails, before⟩)
  · rintro (none | exact) n found
    · cases none.symm.trans found
    · obtain ⟨low, fails, before⟩ := (exactly found).mpr exact
      exact ⟨low, Bool.eq_false_iff.mpr fails, before⟩

/-- A step over the limit is rounded up beyond the greatest word, and the limit itself is the greatest word. -/
theorem firstFailure_wraps :
    firstFailure .lt 0 Int64.maxValue 2 = some (-1) ∧ ¬ (ExitTest.mk .lt 0 Int64.maxValue 2).Exact ∧
    firstFailure .le 0 1 Int64.maxValue = some 0 ∧ ¬ (ExitTest.mk .le 0 1 Int64.maxValue).Exact := by decide

end Evolution

end LoopConflict
