import LoopConflict.Proofs.Access.Memory
import LoopConflict.Proofs.Evolution.Depth
import LoopConflict.Proofs.Word

/-!
The affine form of an index is the index. Factoring writes an expression as a multiple of the divisor and a
remainder (`upholds_factor`), so a peeled recurrence is a multiple of its loop's variable and the rest
(`upholds_peel`), and nothing of an index is lost when it is decomposed (`decompose_exact`).
-/
namespace LoopConflict.Access

open Loop (LoopId)
open Program (Function)
open Evolution (Expr Context Query Combination Assignment Upholds upholds_pure upholds_get)

variable {a : Assignment}

/-- The word of an affine form, where each variable stands for its recurrence. -/
def Affine.word (a : Assignment) (form : Affine) : Int64 :=
  form.coeffs.foldr (fun c n => c.value * c.iv.recurrence.value a + n) form.const

/-! ### Words of answers -/

section

variable (a : Assignment)

theorem upholds_const (n : Int64) : Upholds (fun _ => True) (Query.const n) fun e => e.value a = n :=
  fun c _ => ⟨trivial, Query.value_const c a n⟩

theorem upholds_sum (x y : Expr) :
    Upholds (fun _ => True) (Query.sum [x, y]) fun e => e.value a = x.value a + y.value a :=
  fun c _ => ⟨trivial, (Query.value_combine c a .sum [x, y]).trans (by simp [Combination.value, Expr.total])⟩

theorem upholds_product (ops : List Expr) :
    Upholds (fun _ => True) (Query.product ops) fun e => e.value a = Expr.totalProduct a ops :=
  fun c _ => ⟨trivial, Query.value_combine c a .product ops⟩

theorem upholds_recur (l : LoopId) (start step : Expr) (noWrap : Bool) :
    Upholds (fun _ => True) (Query.recur l start step noWrap) fun e =>
      e.value a = start.value a + step.value a * a.rounds l :=
  fun c _ => ⟨trivial, Query.value_recur c a l start step noWrap⟩

theorem upholds_difference (x y : Expr) :
    Upholds (fun _ => True) (Query.difference x y) fun e => e.value a = x.value a - y.value a :=
  fun c _ => ⟨trivial, (Query.means_difference c ⟨rfl, x.over_true⟩ ⟨rfl, y.over_true⟩).value⟩

theorem value_of_isZero {e : Expr} (zero : e.isZero = true) : e.value a = 0 := by
  rw [Expr.isZero, beq_iff_eq] at zero
  rw [Expr.eq_const_of_const? zero, Expr.value]

end

/-! ### Factoring -/

/-- The answer, if there is one, writes the word as a multiple of the divisor and a remainder. -/
def Splits (a : Assignment) (divisor : Expr) (n : Int64) (answer : Option (Expr × Expr)) : Prop :=
  ∀ q rem, answer = some (q, rem) → n = divisor.value a * q.value a + rem.value a

theorem splits_none (divisor : Expr) (n : Int64) : Splits a divisor n none :=
  fun _ _ answer => by cases answer

theorem splits_some {divisor q rem : Expr} {n : Int64} (split : n = divisor.value a * q.value a + rem.value a) :
    Splits a divisor n (some (q, rem)) := by
  intro q' rem' answer
  cases answer
  exact split

theorem upholds_factorConst (n : Int64) (divisor rem : Expr) :
    Upholds (fun _ => True) (factorConst n divisor.const? rem) (Splits a divisor (n + rem.value a)) := by
  unfold factorConst
  split
  · exact upholds_pure (splits_none _ _)
  · rename_i d isConst
    obtain rfl := Expr.eq_const_of_const? isConst
    split
    · exact upholds_pure (splits_none _ _)
    · refine (upholds_const a (n / d)).bind fun q isQ => (upholds_const a (n % d)).bind fun r isR =>
        (upholds_sum a rem r).bind fun rem' isRem => upholds_pure (splits_some ?_)
      have divided := Word.mul_div_add_mod n d
      rw [isRem, isQ, isR, Expr.value]
      grind

theorem upholds_factorProduct (k : Int64) (factors : List Expr) (divisor rem : Expr) :
    Upholds (fun _ => True) (factorProduct k factors divisor.const? rem)
      (Splits a divisor ((Expr.product k factors).value a + rem.value a)) := by
  unfold factorProduct
  split
  · exact upholds_pure (splits_none _ _)
  · rename_i d isConst
    obtain rfl := Expr.eq_const_of_const? isConst
    split
    · exact upholds_pure (splits_none _ _)
    · rename_i multiple
      have noRest : k % d = 0 := by
        by_contra rest
        exact multiple (.inr (.inr rest))
      refine (upholds_const a (k / d)).bind fun c isC => (upholds_product a (c :: factors)).bind fun q isQ =>
        upholds_pure (splits_some ?_)
      have divided := Word.mul_div_add_mod k d
      rw [noRest, Int64.add_zero] at divided
      rw [isQ, Expr.totalProduct, isC, Expr.value, Expr.value, ← Int64.mul_assoc, divided]

/-- Factoring is exact: what is written as a multiple of the divisor and a remainder keeps its word. -/
theorem upholds_factor (divisor e rem : Expr) :
    Upholds (fun _ => True) (factor divisor e rem) (Splits a divisor (e.value a + rem.value a)) := by
  fun_induction factor divisor e rem with
  | case1 e rem isOne => exact upholds_pure (splits_some (by simp [isOne, Expr.value]))
  | case2 => exact (upholds_const a 1).bind fun q isQ => upholds_pure (splits_some (by simp [isQ]))
  | case3 => exact (upholds_const a 0).bind fun q isQ => upholds_pure (splits_some (by simp [isQ, Expr.value]))
  | case4 => exact upholds_factorConst _ _ _
  | case5 => exact upholds_factorProduct _ _ _ _
  | case6 rem _ l s t _ step start =>
    refine upholds_get fun _ _ => (upholds_const a 0).bind fun zero isZero => (step zero).bind fun factored steps => ?_
    split
    · exact upholds_pure (splits_none _ _)
    · rename_i step' stepRem
      split
      · rename_i noRest
        refine start.bind fun factored starts => ?_
        split
        · exact upholds_pure (splits_none _ _)
        · rename_i start' rem'
          have stepSplit := steps step' stepRem rfl
          have startSplit := starts start' rem' rfl
          rw [isZero, value_of_isZero a noRest] at stepSplit
          refine (upholds_recur a l start' step' _).bind fun q isQ => upholds_pure (splits_some ?_)
          rw [isQ, Expr.value]
          grind
      · exact upholds_pure (splits_none _ _)
  | case7 => exact upholds_pure (splits_none _ _)

/-- A constant is divided by a constant: the quotient is the truncated one, and must not be zero. -/
theorem factor_const (c : Context) (rem : Expr) {n d : Int64} (divides : d ≠ 0) (notOne : d ≠ 1) (nonzero : n ≠ 0)
    (other : n ≠ d) : (factor (.const d) (.const n) rem c).1 =
      if n.toInt.tdiv d.toInt = 0 then none
      else some (.const (.ofInt (n.toInt.tdiv d.toInt)),
        (Query.sum [rem, .const (.ofInt (n.toInt.tmod d.toInt))] c).1) := by
  have divided : factor (.const d) (.const n) rem = factorConst n (some d) rem := by
    rw [factor]
    simp only [Expr.const.injEq, notOne, other, nonzero, if_false]
    rfl
  rw [divided, factorConst, ← Word.div_eq_ofInt, ← Word.mod_eq_ofInt]
  simp only [← Word.div_eq_zero_iff]
  by_cases none : n / d = 0
  · rw [if_pos (.inr none), if_pos none]
    rfl
  · rw [if_neg (not_or.mpr ⟨divides, none⟩), if_neg none]
    -- The remainder is added in a context that has recorded the two constants.
    let c₁ := (Query.const (n / d) c).2
    let c₂ := (Query.const (n % d) c₁).2
    have forest : c₂.forest = c.forest := ((Query.quiet_const _).forest c₁).trans ((Query.quiet_const _).forest c)
    have same := Query.combine_eq_of_forest forest .sum [rem, .const (n % d)]
    change some ((Query.const (n / d) c).1, (Query.sum [rem, (Query.const (n % d) c₁).1] c₂).1) = _
    rw [Query.const_fst, Query.const_fst]
    exact congrArg (fun e => some (Expr.const (n / d), e)) same

/-- Factoring is an identity: with the old remainder the expression is the divisor times the quotient and the new
    remainder. Constants have a quotient exactly if the truncated one is not zero. -/
theorem factor_identity (c : Context) (divisor e rem : Expr) :
    (∀ q rem', (factor divisor e rem c).1 = some (q, rem') → ∀ a : Assignment,
      e.value a + rem.value a = divisor.value a * q.value a + rem'.value a ∧
      (rem = .const 0 → rem' = .const 0 → e.value a = divisor.value a * q.value a)) ∧
    ∀ n d : Int64, d ≠ 0 → d ≠ 1 → n ≠ 0 → n ≠ d → (factor (.const d) (.const n) rem c).1 =
      if n.toInt.tdiv d.toInt = 0 then none
      else some (.const (.ofInt (n.toInt.tdiv d.toInt)),
        (Query.sum [rem, .const (.ofInt (n.toInt.tmod d.toInt))] c).1) := by
  refine ⟨fun q rem' found a => ?_, fun n d divides notOne nonzero other => factor_const c rem divides notOne nonzero other⟩
  have split := (upholds_factor (a := a) divisor e rem c trivial).2 q rem' found
  refine ⟨split, ?_⟩
  rintro rfl rfl
  simpa [Expr.value] using split

/-! ### Peeling -/

/-- A peeled recurrence is the variable times its coefficient, and the rest. -/
theorem upholds_peel (ivs : Variables) (l : LoopId) (start step : Expr) :
    Upholds (fun _ => True) (peel ivs l start step) fun answer => ∀ coeff rest, answer = .ok (coeff, rest) →
      (Expr.recur l start step).value a = coeff.value * coeff.iv.recurrence.value a + rest.value a := by
  unfold peel
  split
  · exact upholds_pure fun _ _ answer => by cases answer
  · rename_i iv found
    have sameLoop : iv.loop = l := by simpa using List.find?_some found
    split
    · rename_i isVariable
      have same : iv.recurrence = .recur l start step := by simpa using List.find?_some isVariable
      refine (upholds_const a 0).bind fun zero isZero => upholds_pure fun coeff rest answer => ?_
      cases answer
      simp [same, isZero]
    · refine (upholds_const a 0).bind fun zero isZero => (upholds_factor (a := a) iv.step step zero).bind fun factored divided => ?_
      split
      · exact upholds_pure fun _ _ answer => by cases answer
      · rename_i q rem
        split
        · rename_i noRest
          split
          · rename_i k
            have multiple := divided (.const k) rem rfl
            rw [isZero, value_of_isZero a noRest, Expr.value] at multiple
            refine (upholds_product a [.const k, iv.start]).bind fun scaled isScaled =>
              (upholds_difference a start scaled).bind fun rest isRest => upholds_pure fun coeff rest' answer => ?_
            cases answer
            simp only [InductionVariable.recurrence, sameLoop, isRest, isScaled, Expr.value, Expr.totalProduct]
            grind
          · exact upholds_pure fun _ _ answer => by cases answer
        · exact upholds_pure fun _ _ answer => by cases answer

/-- Peeling all recurrences keeps the word. -/
theorem upholds_peelAll (ivs : Variables) (peelings : Nat) (e : Expr) :
    Upholds (fun _ => True) (peelAll ivs peelings e) fun answer => ∀ form, answer = some (.ok form) →
      e.value a = form.word a := by
  fun_induction peelAll ivs peelings e with
  | case1 peelings l start step ih =>
    refine (upholds_peel (a := a) ivs l start step).bind fun peeled isPeeled => ?_
    split
    · exact upholds_pure fun _ answer => by cases answer
    · rename_i coeff rest
      have here := isPeeled coeff rest rfl
      refine (ih rest).bind fun others rests => ?_
      split
      · rename_i form
        have there := rests form rfl
        refine upholds_pure fun form' answer => ?_
        cases answer
        rw [here, there]
        rfl
      · rename_i notOk
        exact upholds_pure fun form answer => absurd answer (notOk form)
  | case2 => exact upholds_pure fun _ answer => by cases answer
  | case3 =>
    refine upholds_pure fun form answer => ?_
    cases answer
    rfl
  | case4 => exact upholds_pure fun _ answer => by cases answer

/-- An index that has an affine form is that form: its word is the sum of the coefficients times the words of
    the variables' recurrences, and the constant. -/
theorem decompose_exact {ivs : Variables} {offset : Expr} {c : Context} {form : Affine}
    (found : (decompose ivs offset c).1 = .ok form) (a : Assignment) : offset.value a = form.word a := by
  have decomposed : Upholds (fun _ => True) (decompose ivs offset) fun answer => ∀ form, answer = .ok form →
      offset.value a = form.word a := by
    refine upholds_get fun c _ => (upholds_peelAll (a := a) ivs _ offset).bind fun peeled isPeeled => ?_
    split
    · exact upholds_pure fun form answer => isPeeled form (by rw [answer])
    · exact upholds_pure fun form answer => by cases answer
  exact (decomposed c trivial).2 form found

/-- The inner loop starts where the outer one is, and its index is made of both counters. -/
def staircase : Function where
  name := "staircase"
  receiver := none
  types := []
  params := []
  free := []
  globals := []
  constants := [⟨.int 1, .basic .int⟩, ⟨.int 2, .basic .int⟩, ⟨.int 3, .basic .int⟩, ⟨.int 4, .basic .int⟩,
    ⟨.int 6, .basic .int⟩, ⟨.int 20, .basic .int⟩]
  blocks := [
    ⟨"entry", [], [1], [⟨.jump, none, 0⟩]⟩,
    ⟨"for.loop", [0, 4], [2, 5], [
      ⟨.phi [.const 1, .result ⟨4, 0⟩] "i", some ("t0", .basic .int), 0⟩,
      ⟨.binary (.compare .lt) (.result ⟨1, 0⟩) (.const 5), some ("t1", .basic .bool), 0⟩,
      ⟨.branch (.result ⟨1, 1⟩), none, 0⟩]⟩,
    ⟨"for.body", [1], [3], [⟨.jump, none, 0⟩]⟩,
    ⟨"for.loop", [2, 3], [3, 4], [
      ⟨.phi [.result ⟨1, 0⟩, .result ⟨3, 5⟩] "j", some ("t2", .basic .int), 0⟩,
      ⟨.binary .mul (.const 3) (.result ⟨3, 0⟩), some ("t3", .basic .int), 0⟩,
      ⟨.binary .mul (.const 4) (.result ⟨1, 0⟩), some ("t4", .basic .int), 0⟩,
      ⟨.binary .add (.result ⟨3, 1⟩) (.result ⟨3, 2⟩), some ("t5", .basic .int), 0⟩,
      ⟨.binary .add (.result ⟨3, 3⟩) (.const 0), some ("t6", .basic .int), 0⟩,
      ⟨.binary .add (.result ⟨3, 0⟩) (.const 1), some ("t7", .basic .int), 0⟩,
      ⟨.binary (.compare .lt) (.result ⟨3, 5⟩) (.const 5), some ("t8", .basic .bool), 0⟩,
      ⟨.branch (.result ⟨3, 6⟩), none, 0⟩]⟩,
    ⟨"for.done", [3], [1], [
      ⟨.binary .add (.result ⟨1, 0⟩) (.const 2), some ("t9", .basic .int), 0⟩,
      ⟨.jump, none, 0⟩]⟩,
    ⟨"for.done", [1], [], [⟨.leave [], none, 0⟩]⟩]
  recover := none

theorem staircase_decomposed :
    (Query.evolution (.result ⟨3, 4⟩) (.asked staircase [])).1 =
      .recur 1 (.recur 0 (.const 21) (.const 30)) (.const 8) ∧
    ∃ outer inner, inductionVariables staircase = [outer, inner] ∧
      inner.recurrence = .recur 1 (.recur 0 (.const 2) (.const 3)) (.const 2) ∧
      (decompose [outer, inner] (.recur 1 (.recur 0 (.const 21) (.const 30)) (.const 8))
        (.asked staircase [.evolution (.result ⟨3, 4⟩)])).1 = .ok ⟨[⟨inner, 4⟩, ⟨outer, 6⟩], 1⟩ ∧
      ∀ a, (Expr.recur 1 (.recur 0 (.const 21) (.const 30)) (.const 8)).value a =
        4 * inner.recurrence.value a + (6 * outer.recurrence.value a + 1) := by
  have chosen : inductionVariables staircase = [⟨⟨1, 0⟩, 0, .const 2, .const 3⟩,
      ⟨⟨3, 0⟩, 1, .recur 0 (.const 2) (.const 3), .const 2⟩] := by decide +kernel
  refine ⟨by decide +kernel, _, _, chosen, rfl, ?_⟩
  have found : (decompose [⟨⟨1, 0⟩, 0, .const 2, .const 3⟩, ⟨⟨3, 0⟩, 1, .recur 0 (.const 2) (.const 3), .const 2⟩]
      (.recur 1 (.recur 0 (.const 21) (.const 30)) (.const 8)) (.asked staircase [.evolution (.result ⟨3, 4⟩)])).1 =
        .ok ⟨[⟨⟨⟨3, 0⟩, 1, .recur 0 (.const 2) (.const 3), .const 2⟩, 4⟩, ⟨⟨⟨1, 0⟩, 0, .const 2, .const 3⟩, 6⟩], 1⟩ := by
    decide +kernel
  exact ⟨found, fun a => decompose_exact found a⟩

/-- The remainder of the start is kept, and the quotient of the least word and `-1` is the least word. -/
theorem staircase_factored :
    (factor (.const 2) (.recur 1 (.recur 0 (.const 21) (.const 30)) (.const 8)) (.const 5) (.asked staircase [])).1 =
      some (.recur 1 (.recur 0 (.const 10) (.const 15)) (.const 4), .const 6) ∧
    (∀ a, (Expr.recur 1 (.recur 0 (.const 21) (.const 30)) (.const 8)).value a + 5 =
      2 * (Expr.recur 1 (.recur 0 (.const 10) (.const 15)) (.const 4)).value a + 6) ∧
    (factor (.const (-1)) (.const Int64.minValue) (.const 5) (.asked staircase [])).1 =
      some (.const Int64.minValue, .const 5) := by
  have found : (factor (.const 2) (.recur 1 (.recur 0 (.const 21) (.const 30)) (.const 8)) (.const 5)
      (.asked staircase [])).1 = some (.recur 1 (.recur 0 (.const 10) (.const 15)) (.const 4), .const 6) := by
    decide +kernel
  have identity := factor_identity (.asked staircase []) (.const 2)
    (.recur 1 (.recur 0 (.const 21) (.const 30)) (.const 8)) (.const 5)
  refine ⟨found, fun a => (identity.1 _ _ found a).1, ?_⟩
  rw [identity.2 Int64.minValue (-1) (by decide) (by decide) (by decide) (by decide)]
  decide +kernel

end LoopConflict.Access
