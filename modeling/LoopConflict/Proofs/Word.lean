import LoopConflict.Word
import Mathlib.Algebra.Order.Ring.Int
import Mathlib.Data.Int.GCD

/-!
What checked arithmetic on words says about integers: a checked sum, product or difference is the
exact one (`add?_eq_some_iff`, `mul?_eq_some_iff`, `toInt_of_sub?`), and the greatest common divisor
of two words is that of their absolute values (`natAbs_gcd`). A sum or product that is not a word is told apart and
wrapped around (`Checked.Computes`), and the division chain ends with the greatest common divisor (`exists_rounds`).
-/
namespace LoopConflict.Word

/-- A word lies between the least and the greatest one. -/
theorem toInt_bounds (a : Int64) : -9223372036854775808 ≤ a.toInt ∧ a.toInt ≤ 9223372036854775807 := by
  have low := a.le_toInt
  have high := a.toInt_lt
  omega

theorem toInt_ne_zero {a : Int64} (nonzero : a ≠ 0) : a.toInt ≠ 0 := by
  rw [← Int64.toInt_zero, Ne, Int64.toInt_inj]
  exact nonzero

theorem toInt_minValue_eq : Int64.minValue.toInt = -9223372036854775808 := rfl

/-- The word of a wrapped integer is the integer itself iff that is in range. -/
theorem bmod_eq_self_iff (n : Int) :
    n.bmod (2 ^ 64) = n ↔ -9223372036854775808 ≤ n ∧ n ≤ 9223372036854775807 := by
  constructor
  · intro same
    have low := Int.le_bmod (x := n) (m := 2 ^ 64) (by decide)
    have high := Int.bmod_lt (x := n) (m := 2 ^ 64) (by decide)
    omega
  · intro range
    exact Int.bmod_eq_of_le (by omega) (by omega)

/-- The integer is a word. -/
def Fits (n : Int) : Prop :=
  -9223372036854775808 ≤ n ∧ n ≤ 9223372036854775807

instance (n : Int) : Decidable (Fits n) :=
  inferInstanceAs (Decidable (_ ∧ _))

theorem toInt_ofInt_of_fits {n : Int} (fits : Fits n) : (Int64.ofInt n).toInt = n := by
  rw [Int64.toInt_ofInt]
  exact (bmod_eq_self_iff n).mpr fits

theorem toInt_add_one {a : Int64} (fits : Fits (a.toInt + 1)) : (a + 1).toInt = a.toInt + 1 := by
  rw [Int64.toInt_add, Int64.toInt_one, bmod_eq_self_iff]
  exact fits

theorem toInt_sub_one {a : Int64} (fits : Fits (a.toInt - 1)) : (a - 1).toInt = a.toInt - 1 := by
  rw [Int64.toInt_sub, Int64.toInt_one, bmod_eq_self_iff]
  exact fits

/-- Wrapping changes an integer by a multiple of the number of words. -/
theorem exists_bmod_eq (n : Int) : ∃ k : Int, n.bmod (2 ^ 64) = n + k * 18446744073709551616 := by
  have split := Int.bmod_add_bdiv n (2 ^ 64)
  exact ⟨-(n.bdiv (2 ^ 64)), by omega⟩

theorem add?_eq_some_iff {a b c : Int64} : add? a b = some c ↔ c.toInt = a.toInt + b.toInt := by
  have rangeA := toInt_bounds a
  have rangeB := toInt_bounds b
  have sum : (a + b).toInt = (a.toInt + b.toInt).bmod (2 ^ 64) := Int64.toInt_add a b
  have rangeSum := toInt_bounds (a + b)
  obtain ⟨k, wrapped⟩ := exists_bmod_eq (a.toInt + b.toInt)
  rw [← sum] at wrapped
  simp only [add?, add, Checked.toOption, beq_iff_eq, decide_eq_decide, Int64.lt_iff_toInt_lt,
    Option.ite_none_right_eq_some, Option.some.injEq, Int64.toInt_zero]
  constructor
  · rintro ⟨sameWay, rfl⟩
    omega
  · intro exact
    have rangeC := toInt_bounds c
    have same : a + b = c := Int64.toInt_inj.mp (by omega)
    exact ⟨by omega, same⟩

/-- Dividing a wrapped product gives a factor back only if the product is exact, except by `-1`. -/
private theorem toInt_mul_of_div_eq {a b : Int64} (nonzero : b ≠ 0) (notMinusOne : b ≠ -1)
    (back : a * b / b = a) : (a * b).toInt = a.toInt * b.toInt := by
  have divided : (a * b).toInt.tdiv b.toInt = a.toInt := by
    rw [← Int64.toInt_div_of_ne_right _ _ notMinusOne, back]
  have small : ((a * b).toInt.tmod b.toInt).natAbs < b.toInt.natAbs := by
    rw [← Int64.toInt_mod]
    exact natAbs_mod_lt _ _ nonzero
  have split := Int.tmod_add_mul_tdiv (a * b).toInt b.toInt
  rw [divided] at split
  have product : (a * b).toInt = (a.toInt * b.toInt).bmod (2 ^ 64) := Int64.toInt_mul a b
  obtain ⟨k, wrapped⟩ := exists_bmod_eq (a.toInt * b.toInt)
  rw [← product] at wrapped
  have rangeB := toInt_bounds b
  rw [mul_comm] at split
  omega

theorem mul?_eq_some_iff {a b c : Int64} : mul? a b = some c ↔ c.toInt = a.toInt * b.toInt := by
  by_cases zero : a = 0 ∨ b = 0
  · have product : a.toInt * b.toInt = 0 := by
      rcases zero with rfl | rfl <;> simp
    simp only [mul?, mul, zero, ↓reduceIte, Checked.toOption, Option.some.injEq, product]
    rw [← Int64.toInt_zero, Int64.toInt_inj]
    exact eq_comm
  obtain ⟨nonzeroA, nonzeroB⟩ := not_or.mp zero
  have rangeC := toInt_bounds c
  by_cases special : (a = -1 ∧ b = Int64.minValue) ∨ (b = -1 ∧ a = Int64.minValue)
  · simp only [mul?, mul, zero, ↓reduceIte, special, Checked.toOption]
    have product : a.toInt * b.toInt = 9223372036854775808 := by
      rcases special with ⟨rfl, rfl⟩ | ⟨rfl, rfl⟩ <;> rfl
    rw [product]
    constructor
    · intro impossible
      simp at impossible
    · intro exact
      omega
  · simp only [mul?, mul, zero, ↓reduceIte, special, Checked.toOption, beq_iff_eq,
      Option.ite_none_right_eq_some, Option.some.injEq]
    constructor
    · rintro ⟨back, rfl⟩
      by_cases minusOne : b = -1
      · subst minusOne
        have notLeast : a ≠ Int64.minValue := fun least => special (.inr ⟨rfl, least⟩)
        have rangeA := toInt_bounds a
        have different : a.toInt ≠ -9223372036854775808 := by
          rw [← toInt_minValue_eq, Ne, Int64.toInt_inj]
          exact notLeast
        have unit : (-1 : Int64).toInt = -1 := rfl
        rw [Int64.toInt_mul, unit, bmod_eq_self_iff]
        omega
      · exact toInt_mul_of_div_eq nonzeroB minusOne back
    · intro exact
      have same : a * b = c := by
        rw [← Int64.toInt_inj, Int64.toInt_mul, ← exact]
        exact Int64.toInt_bmod c
      have divisor := toInt_ne_zero nonzeroB
      refine ⟨?_, same⟩
      rw [← Int64.toInt_inj, Int64.toInt_div, same, exact, Int.mul_tdiv_cancel _ divisor]
      exact Int64.toInt_bmod a

/-- The negation of a word other than the least one is exact. -/
theorem toInt_neg_of_ne {a : Int64} (notLeast : a ≠ Int64.minValue) : (-a).toInt = -a.toInt := by
  have range := toInt_bounds a
  have different : a.toInt ≠ -9223372036854775808 := by
    rw [← toInt_minValue_eq, Ne, Int64.toInt_inj]
    exact notLeast
  rw [Int64.toInt_neg, bmod_eq_self_iff]
  omega

theorem toInt_of_sub? {a b c : Int64} (found : sub? a b = some c) : c.toInt = a.toInt - b.toInt := by
  unfold sub? at found
  split at found
  · cases found
  · rename_i notLeast
    rw [add?_eq_some_iff.mp found, toInt_neg_of_ne notLeast, Int.sub_eq_add_neg]

/-- The exact quotient of a multiple, unless it leaves the range of words. -/
theorem toInt_div_of_mul_eq {d a : Int64} {x : Int} (nonzero : a ≠ 0) (multiple : a.toInt * x = d.toInt)
    (small : x ≤ 9223372036854775807) : (d / a).toInt = x := by
  have divisor := toInt_ne_zero nonzero
  have quotient : d.toInt.tdiv a.toInt = x := by
    rw [← multiple, Int.mul_tdiv_cancel_left _ divisor]
  have range := toInt_bounds d
  have low : -9223372036854775808 ≤ x := by
    by_contra below
    have big : 9223372036854775808 < x.natAbs := by omega
    have size : d.toInt.natAbs = a.toInt.natAbs * x.natAbs := by rw [← multiple, Int.natAbs_mul]
    have factor : 1 ≤ a.toInt.natAbs := by omega
    have := Nat.mul_le_mul_right x.natAbs factor
    omega
  rw [Int64.toInt_div, quotient, bmod_eq_self_iff]
  exact ⟨low, small⟩

theorem mod_eq_zero_iff_dvd (d a : Int64) : d % a = 0 ↔ a.toInt ∣ d.toInt := by
  rw [← Int64.toInt_inj, Int64.toInt_mod, Int64.toInt_zero]
  exact ⟨Int.dvd_of_tmod_eq_zero, Int.tmod_eq_zero_of_dvd⟩

/-- Division truncates; the quotient of the least word and `-1` wraps around. -/
theorem div_eq_ofInt (n d : Int64) : n / d = Int64.ofInt (n.toInt.tdiv d.toInt) := by
  rw [Int64.ofInt_tdiv n.minValue_le_toInt n.toInt_le d.minValue_le_toInt d.toInt_le, Int64.ofInt_toInt,
    Int64.ofInt_toInt]

theorem mod_eq_ofInt (n d : Int64) : n % d = Int64.ofInt (n.toInt.tmod d.toInt) := by
  rw [← Int64.toInt_mod, Int64.ofInt_toInt]

/-- A quotient that wraps around is not zero. -/
theorem div_eq_zero_iff (n d : Int64) : n / d = 0 ↔ n.toInt.tdiv d.toInt = 0 := by
  have wrapped : (n / d).toInt = (n.toInt.tdiv d.toInt).bmod (2 ^ 64) := Int64.toInt_div n d
  rw [← Int64.toInt_inj, wrapped, Int64.toInt_zero]
  constructor
  · intro zero
    have range := toInt_bounds n
    have small : (n.toInt.tdiv d.toInt).natAbs ≤ n.toInt.natAbs := by
      rw [Int.natAbs_tdiv]
      exact Nat.div_le_self _ _
    obtain ⟨k, same⟩ := exists_bmod_eq (n.toInt.tdiv d.toInt)
    omega
  · intro zero
    rw [zero]
    rfl

/-- Quotient and remainder give the dividend back, also where the quotient wraps around. -/
theorem mul_div_add_mod (n d : Int64) : d * (n / d) + n % d = n := by
  calc d * (n / d) + n % d
      = Int64.ofInt (d.toInt * n.toInt.tdiv d.toInt + n.toInt.tmod d.toInt) := by
        rw [div_eq_ofInt, mod_eq_ofInt, Int64.ofInt_add, Int64.ofInt_mul, Int64.ofInt_toInt]
    _ = n := by rw [Int.mul_tdiv_add_tmod, Int64.ofInt_toInt]

theorem natAbs_abs (a : Int64) : (abs a).toInt.natAbs = a.toInt.natAbs := by
  unfold abs
  split
  · by_cases least : a = Int64.minValue
    · subst least
      rfl
    · rw [toInt_neg_of_ne least, Int.natAbs_neg]
  · rfl

theorem natAbs_lastRemainder (a b : Int64) :
    (lastRemainder a b).toInt.natAbs = Nat.gcd a.toInt.natAbs b.toInt.natAbs := by
  induction a, b using lastRemainder.induct with
  | case1 a =>
    rw [lastRemainder]
    simp
  | case2 a b nonzero ih =>
    rw [lastRemainder, dif_neg nonzero, ih, Int64.toInt_mod, Int.natAbs_tmod, Nat.gcd_comm, ← Nat.gcd_rec,
      Nat.gcd_comm]

/-- The greatest common divisor is that of the absolute values, also for the least word. -/
theorem natAbs_gcd (a b : Int64) : (gcd a b).toInt.natAbs = Nat.gcd a.toInt.natAbs b.toInt.natAbs := by
  rw [gcd, natAbs_lastRemainder, natAbs_abs, natAbs_abs]

/-! ### Checked results -/

/-- The result of a computation that has the integer `n` for its exact result: it is marked as exact iff `n` is a
    word, and then it is `n`; otherwise it is `n` wrapped around. -/
structure Checked.Computes (c : Checked) (n : Int) : Prop where
  marked : c.exact = true ↔ Fits n
  kept : c.exact = true → c.value.toInt = n
  wrapped : c.value = Int64.ofInt n

theorem Checked.computes_of {c : Checked} {n : Int} (told : ∀ w, c.toOption = some w ↔ w.toInt = n)
    (wrapped : c.value = Int64.ofInt n) : c.Computes n := by
  have kept : c.exact = true → c.value.toInt = n := fun exact => (told c.value).mp (if_pos exact)
  refine ⟨⟨fun exact => kept exact ▸ toInt_bounds c.value, fun fits => ?_⟩, kept, wrapped⟩
  have found := (told (Int64.ofInt n)).mpr (toInt_ofInt_of_fits fits)
  exact (Option.ite_none_right_eq_some.mp found).1

theorem computes_add (a b : Int64) : (add a b).Computes (a.toInt + b.toInt) := by
  refine Checked.computes_of (fun _ => add?_eq_some_iff) ?_
  rw [Int64.ofInt_add, Int64.ofInt_toInt, Int64.ofInt_toInt]
  rfl

theorem computes_mul (a b : Int64) : (mul a b).Computes (a.toInt * b.toInt) := by
  refine Checked.computes_of (fun _ => mul?_eq_some_iff) ?_
  rw [Int64.ofInt_mul, Int64.ofInt_toInt, Int64.ofInt_toInt]
  unfold mul
  split
  · rename_i zero
    rcases zero with rfl | rfl <;> simp
  · split <;> rfl

/-! ### The division chain -/

/-- One round of the division chain. -/
def divided (p : Int64 × Int64) : Int64 × Int64 :=
  (p.2, p.1 % p.2)

/-- The chain ends after at most as many rounds as its second number is large. -/
theorem exists_rounds (a b : Int64) : ∃ n ≤ b.toInt.natAbs,
    divided^[n] (a, b) = (lastRemainder a b, 0) ∧ ∀ m < n, (divided^[m] (a, b)).2 ≠ 0 := by
  induction a, b using lastRemainder.induct with
  | case1 a =>
    refine ⟨0, Nat.zero_le _, ?_, fun m before => absurd before (Nat.not_lt_zero m)⟩
    rw [lastRemainder]
    simp
  | case2 a b nonzero ih =>
    obtain ⟨n, few, ends, goesOn⟩ := ih
    refine ⟨n + 1, Nat.lt_of_le_of_lt few (natAbs_mod_lt a b nonzero), ?_, fun m before => ?_⟩
    · rw [lastRemainder, dif_neg nonzero]
      exact ends
    · cases m with
      | zero => exact nonzero
      | succ m => exact goesOn m (Nat.lt_of_succ_lt_succ before)

theorem lastRemainder_nonneg {a b : Int64} (first : 0 ≤ a.toInt) (second : 0 ≤ b.toInt) :
    0 ≤ (lastRemainder a b).toInt := by
  induction a, b using lastRemainder.induct with
  | case1 a =>
    rw [lastRemainder]
    simpa using first
  | case2 a b nonzero ih =>
    rw [lastRemainder, dif_neg nonzero]
    refine ih second ?_
    rw [Int64.toInt_mod]
    exact Int.tmod_nonneg _ first

/-- Only the least word has no absolute value. -/
theorem toInt_abs_nonneg {a : Int64} (notLeast : a ≠ Int64.minValue) : 0 ≤ (abs a).toInt := by
  unfold abs
  split
  · rename_i negative
    have below := Int64.lt_iff_toInt_lt.mp negative
    rw [toInt_neg_of_ne notLeast]
    rw [Int64.toInt_zero] at below
    omega
  · rename_i notNegative
    rw [Int64.lt_iff_toInt_lt, Int64.toInt_zero] at notNegative
    omega

/-- Checked sums and products are exact iff they are words. The division chain of two words ends, and its last
    non-zero remainder is their greatest common divisor, up to a sign where one of them is the least word. -/
theorem arithmetic_exact (a b : Int64) :
    (add a b).Computes (a.toInt + b.toInt) ∧ (mul a b).Computes (a.toInt * b.toInt) ∧
      (∃ n ≤ b.toInt.natAbs, divided^[n] (abs a, abs b) = (gcd a b, 0) ∧
        ∀ m < n, (divided^[m] (abs a, abs b)).2 ≠ 0) ∧
      (gcd a b).toInt.natAbs = Nat.gcd a.toInt.natAbs b.toInt.natAbs ∧
      (a ≠ Int64.minValue → b ≠ Int64.minValue → 0 ≤ (gcd a b).toInt) := by
  obtain ⟨n, few, chain⟩ := exists_rounds (abs a) (abs b)
  rw [natAbs_abs] at few
  refine ⟨computes_add a b, computes_mul a b, ⟨n, few, chain⟩, natAbs_gcd a b, fun first second => ?_⟩
  exact lastRemainder_nonneg (toInt_abs_nonneg first) (toInt_abs_nonneg second)

/-- A product just below the least word, of two numbers with the same absolute value. -/
theorem belowLeast_exact : (mul 3037000500 (-3037000500)).exact = false ∧
    (gcd 3037000500 (-3037000500)).toInt = 3037000500 := by
  obtain ⟨_, product, _, size, sign⟩ := arithmetic_exact 3037000500 (-3037000500)
  have tooSmall : ¬ Fits ((3037000500 : Int64).toInt * (-3037000500 : Int64).toInt) := by decide
  have nonneg := sign (by decide) (by decide)
  have divisor : Nat.gcd (3037000500 : Int64).toInt.natAbs (-3037000500 : Int64).toInt.natAbs = 3037000500 := by decide
  refine ⟨?_, by omega⟩
  rw [← Bool.not_eq_true, product.marked]
  exact tooSmall

end LoopConflict.Word
