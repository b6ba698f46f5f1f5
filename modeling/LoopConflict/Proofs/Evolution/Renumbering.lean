import LoopConflict.Proofs.Evolution.Order

/-!
Other numbers for unknown values. What an expression is made of does not depend on the numbers that unknown values
have, and neither do the ways in which expressions are taken apart (`Expr.renumber`). The numbers of one list can be
put back, so that different expressions stay different (`Expr.renumber_inj`). Only the order of terms can change with
the numbers; where it does not, sums and products are those of the terms with the other numbers
(`Expr.sumOf_renumber`).
-/
namespace LoopConflict.Evolution

open Loop (Forest LoopId)
open Program (Value)

/-! ### Expressions that are alike -/

namespace Expr

mutual

/-- The expressions are of one kind and have the same constants, values, loops and terms, in the same order. The
    numbers of unknown values do not count. -/
def Alike : Expr → Expr → Prop
  | .const m, .const n => m = n
  | .unknown _ v, .unknown _ w => v = w
  | .recur l s t, .recur l' s' t' => l = l' ∧ s.Alike s' ∧ t.Alike t'
  | .sum k ts, .sum k' ts' => k = k' ∧ AllAlike ts ts'
  | .product k ts, .product k' ts' => k = k' ∧ AllAlike ts ts'
  | _, _ => False

def AllAlike : List Expr → List Expr → Prop
  | [], [] => True
  | e :: es, e' :: es' => e.Alike e' ∧ AllAlike es es'
  | _, _ => False

end

mutual

theorem alike_refl : ∀ e : Expr, e.Alike e
  | .const _ => rfl
  | .unknown _ _ => rfl
  | .recur _ s t => ⟨rfl, alike_refl s, alike_refl t⟩
  | .sum _ ts => ⟨rfl, allAlike_refl ts⟩
  | .product _ ts => ⟨rfl, allAlike_refl ts⟩

theorem allAlike_refl : ∀ es : List Expr, AllAlike es es
  | [] => trivial
  | e :: es => ⟨alike_refl e, allAlike_refl es⟩

end

mutual

/-- With a list that numbers each value once, expressions that are alike are equal. -/
theorem eq_of_alike {numbers : List Value} (distinct : numbers.Nodup) :
    ∀ {e e' : Expr}, e.Formed numbers → e'.Formed numbers → e.Alike e' → e = e'
  | .const _, .const _, _, _, alike => congrArg Expr.const alike
  | .unknown m v, .unknown n w, formed, formed', alike => by
    obtain rfl : v = w := alike
    obtain ⟨small, _⟩ := List.getElem?_eq_some_iff.mp formed
    have same : m = n := (List.getElem?_inj small distinct).mp (Eq.trans formed formed'.symm)
    rw [same]
  | .recur _ _ _, .recur _ _ _, formed, formed', ⟨loop, start, step⟩ => by
    rw [loop, eq_of_alike distinct formed.1 formed'.1 start, eq_of_alike distinct formed.2 formed'.2 step]
  | .sum _ _, .sum _ _, formed, formed', ⟨k, terms⟩ => by rw [k, eq_of_allAlike distinct formed.2 formed'.2 terms]
  | .product _ _, .product _ _, formed, formed', ⟨k, terms⟩ => by
    rw [k, eq_of_allAlike distinct formed.2 formed'.2 terms]

theorem eq_of_allAlike {numbers : List Value} (distinct : numbers.Nodup) :
    ∀ {es es' : List Expr}, AllFormed numbers es → AllFormed numbers es' → AllAlike es es' → es = es'
  | [], [], _, _, _ => rfl
  | _ :: _, _ :: _, formed, formed', ⟨first, rest⟩ => by
    rw [eq_of_alike distinct formed.1 formed'.1 first, eq_of_allAlike distinct formed.2 formed'.2 rest]

end

/-! ### Numbers -/

mutual

/-- The expression with other numbers for its unknown values. -/
@[simp]
def renumber (number : Value → Nat) : Expr → Expr
  | .const n => .const n
  | .unknown _ v => .unknown (number v) v
  | .recur l s t => .recur l (s.renumber number) (t.renumber number)
  | .sum k ts => .sum k (renumberAll number ts)
  | .product k ts => .product k (renumberAll number ts)

def renumberAll (number : Value → Nat) : List Expr → List Expr
  | [] => []
  | e :: es => e.renumber number :: renumberAll number es

end

variable {number : Value → Nat} {F : Forest} {l : LoopId}

@[simp]
theorem renumberAll_eq (es : List Expr) : renumberAll number es = es.map (renumber number) := by
  induction es with
  | nil => rfl
  | cons e es ih => rw [renumberAll, ih, List.map_cons]

mutual

theorem alike_of_renumber : ∀ {e e' : Expr}, e.renumber number = e'.renumber number → e.Alike e'
  | .const _, .const _, same => Expr.const.inj same
  | .unknown _ _, .unknown _ _, same => (Expr.unknown.inj same).2
  | .recur _ _ _, .recur _ _ _, same => by
    obtain ⟨loop, start, step⟩ := Expr.recur.inj same
    exact ⟨loop, alike_of_renumber start, alike_of_renumber step⟩
  | .sum _ _, .sum _ _, same => by
    obtain ⟨k, terms⟩ := Expr.sum.inj same
    exact ⟨k, allAlike_of_renumberAll terms⟩
  | .product _ _, .product _ _, same => by
    obtain ⟨k, factors⟩ := Expr.product.inj same
    exact ⟨k, allAlike_of_renumberAll factors⟩

theorem allAlike_of_renumberAll : ∀ {es es' : List Expr}, renumberAll number es = renumberAll number es' → AllAlike es es'
  | [], [], _ => trivial
  | _ :: _, _ :: _, same => by
    obtain ⟨first, rest⟩ := List.cons.inj same
    exact ⟨alike_of_renumber first, allAlike_of_renumberAll rest⟩

end

/-- Expressions that are equal with other numbers are equal. -/
theorem renumber_inj {numbers : List Value} (distinct : numbers.Nodup) {e e' : Expr} (formed : e.Formed numbers)
    (formed' : e'.Formed numbers) : e.renumber number = e'.renumber number ↔ e = e' :=
  ⟨fun same => eq_of_alike distinct formed formed' (alike_of_renumber same), fun same => by rw [same]⟩

mutual

/-- The numbers of the list are those that the values have. -/
theorem renumber_of_formed {numbers : List Value} (own : ∀ i v, numbers[i]? = some v → number v = i) :
    ∀ {e : Expr}, e.Formed numbers → e.renumber number = e
  | .const _, _ => rfl
  | .unknown i v, formed => by rw [renumber, own i v formed]
  | .recur _ _ _, formed => by rw [renumber, renumber_of_formed own formed.1, renumber_of_formed own formed.2]
  | .sum _ _, formed => by rw [renumber, renumberAll_of_formed own formed.2]
  | .product _ _, formed => by rw [renumber, renumberAll_of_formed own formed.2]

theorem renumberAll_of_formed {numbers : List Value} (own : ∀ i v, numbers[i]? = some v → number v = i) :
    ∀ {es : List Expr}, AllFormed numbers es → renumberAll number es = es
  | [], _ => rfl
  | _ :: _, formed => by rw [renumberAll, renumber_of_formed own formed.1, renumberAll_of_formed own formed.2]

end

/-! ### What does not depend on numbers -/

@[simp]
theorem const?_renumber (e : Expr) : (e.renumber number).const? = e.const? := by
  cases e <;> rfl

@[simp]
theorem isZero_renumber (e : Expr) : (e.renumber number).isZero = e.isZero := by
  simp [isZero]

@[simp]
theorem loop?_renumber (e : Expr) : (e.renumber number).loop? = e.loop? := by
  cases e <;> rfl

@[simp]
theorem terms_renumber (e : Expr) : (e.renumber number).terms = e.terms.map (renumber number) := by
  cases e <;> simp [terms]

theorem withConstant_renumber (unit k : Int64) (es : List Expr) :
    withConstant unit k (es.map (renumber number)) = (withConstant unit k es).map (renumber number) := by
  unfold withConstant
  split <;> rfl

mutual

theorem size_renumber : ∀ e : Expr, (e.renumber number).size = e.size
  | .const _ => rfl
  | .unknown _ _ => rfl
  | .recur _ s t => by rw [renumber, size, size, size_renumber s, size_renumber t]
  | .sum _ ts => by rw [renumber, size, size, sizes_renumberAll ts]
  | .product _ ts => by rw [renumber, size, size, sizes_renumberAll ts]

theorem sizes_renumberAll : ∀ es : List Expr, sizes (renumberAll number es) = sizes es
  | [] => rfl
  | e :: es => by rw [renumberAll, sizes, sizes, size_renumber e, sizes_renumberAll es]

end

mutual

theorem isInvariant_renumber : ∀ e : Expr, (e.renumber number).isInvariant F l = e.isInvariant F l
  | .const _ => rfl
  | .unknown _ _ => rfl
  | .recur _ s t => by rw [renumber, isInvariant, isInvariant, isInvariant_renumber s, isInvariant_renumber t]
  | .sum _ ts => by rw [renumber, isInvariant, isInvariant, areInvariant_renumberAll ts]
  | .product _ ts => by rw [renumber, isInvariant, isInvariant, areInvariant_renumberAll ts]

theorem areInvariant_renumberAll : ∀ es : List Expr, areInvariant F l (renumberAll number es) = areInvariant F l es
  | [] => rfl
  | e :: es => by
    rw [renumberAll, areInvariant, areInvariant, isInvariant_renumber e, areInvariant_renumberAll es]

end

mutual

theorem summands_renumber : ∀ e : Expr,
    (e.renumber number).summands = (e.summands.1, e.summands.2.map (renumber number))
  | .const _ => rfl
  | .unknown _ _ => rfl
  | .recur _ _ _ => rfl
  | .product _ _ => rfl
  | .sum _ ts => by simp [summands, summandsOf_renumber ts]

theorem summandsOf_renumber : ∀ es : List Expr,
    summandsOf (es.map (renumber number)) = ((summandsOf es).1, (summandsOf es).2.map (renumber number))
  | [] => rfl
  | e :: es => by simp [summandsOf, summands_renumber e, summandsOf_renumber es]

end

mutual

theorem factors_renumber : ∀ e : Expr, (e.renumber number).factors = (e.factors.1, e.factors.2.map (renumber number))
  | .const _ => rfl
  | .unknown _ _ => rfl
  | .recur _ _ _ => rfl
  | .sum _ _ => rfl
  | .product _ ts => by simp [factors, factorsOf_renumber ts]

theorem factorsOf_renumber : ∀ es : List Expr,
    factorsOf (es.map (renumber number)) = ((factorsOf es).1, (factorsOf es).2.map (renumber number))
  | [] => rfl
  | e :: es => by simp [factorsOf, factors_renumber e, factorsOf_renumber es]

end

/-! ### Terms in order -/

/-- Terms that are in the only order with the other numbers are put in that order. -/
theorem ordered_renumber {es : List Expr} (strict : Strict ((ordered es).map (renumber number))) :
    ordered (es.map (renumber number)) = (ordered es).map (renumber number) :=
  ordered_eq_of_perm strict ((ordered_perm es).symm.map _)

theorem precedes_const {c : Int64} {e : Expr} (other : ∀ n, e ≠ .const n) : e.precedes (.const c) = false := by
  cases e with
  | const n => exact absurd rfl (other n)
  | _ => simp [precedes, rank]

/-- A constant in front stays there. -/
theorem Strict.cons_const {c : Int64} {es : List Expr} (sorted : ∀ e ∈ es, (Expr.const c).precedes e = true)
    (strict : Strict (es.map (renumber number))) : Strict ((Expr.const c :: es).map (renumber number)) := by
  refine List.pairwise_cons.mpr ⟨List.forall_mem_map.mpr fun e member => ?_, strict⟩
  cases e with
  | const n =>
    by_cases after : (Expr.const n).precedes (.const c) = true
    · refine .inl (@key_injective [] _ _ trivial trivial ?_)
      exact key_eq_of_precedes (sorted _ member) after
    · exact .inr (by simpa using after)
  | _ => exact .inr (precedes_const (by simp))

/-- So a sum whose terms are in order with the other numbers is the sum of its terms with these numbers. -/
theorem sumOf_renumber {es : List Expr} (inOrder : ((sumOf es).renumber number).InOrder) :
    sumOf (es.map (renumber number)) = (sumOf es).renumber number := by
  have sorted := pairwise_ordered es
  rw [InOrder, terms_renumber] at inOrder
  rw [sumOf] at inOrder ⊢
  cases first : ordered es with
  | nil =>
    rw [first] at inOrder
    rw [ordered_renumber (by simp [first, Strict]), sumOf, first]
    rfl
  | cons e rest =>
    rw [first] at inOrder sorted
    cases e with
    | const c =>
      -- A zero in front is no term of the sum, but it has a place in the order.
      have strict : Strict ((ordered es).map (renumber number)) := by
        rw [first]
        by_cases zero : c = 0
        · simpa [zero, terms] using inOrder
        · exact .cons_const (List.pairwise_cons.mp sorted).1 (by simpa [zero, terms] using inOrder)
      rw [ordered_renumber strict, sumOf, first]
      by_cases zero : c = 0 <;> simp [zero]
    | _ =>
      rw [ordered_renumber (by rw [first]; exact inOrder), sumOf, first]
      simp

end Expr

/-! ### Parts and like terms -/

section

variable {number : Value → Nat} {l : LoopId}

/-- Start and step get other numbers. -/
def renumberPair (number : Value → Nat) (p : Expr × Expr) : Expr × Expr :=
  (p.1.renumber number, p.2.renumber number)

theorem partsOver_renumber (e : Expr) :
    partsOver l (e.renumber number) = (partsOver l e).map (renumberPair number) := by
  cases e with
  | recur m s t => by_cases same : m = l <;> simp [partsOver, same, renumberPair]
  | _ => rfl

theorem filterMap_partsOver_renumber (terms : List Expr) :
    (terms.map (Expr.renumber number)).filterMap (partsOver l) =
      (terms.filterMap (partsOver l)).map (renumberPair number) := by
  rw [List.filterMap_map, List.map_filterMap]
  exact List.filterMap_congr fun e _ => partsOver_renumber e

/-- The terms fall into the same groups, whatever numbers unknown values have. -/
theorem startsOver_renumber (terms : List Expr) :
    startsOver l (terms.map (Expr.renumber number)) = (startsOver l terms).map (Expr.renumber number) := by
  rw [startsOver, filterMap_partsOver_renumber, List.map_map, startsOver, List.map_map]
  rfl

theorem stepsOver_renumber (terms : List Expr) :
    stepsOver l (terms.map (Expr.renumber number)) = (stepsOver l terms).map (Expr.renumber number) := by
  rw [stepsOver, filterMap_partsOver_renumber, List.map_map, stepsOver, List.map_map]
  rfl

theorem termsBeside_renumber (terms : List Expr) :
    termsBeside l (terms.map (Expr.renumber number)) = (termsBeside l terms).map (Expr.renumber number) := by
  simp [termsBeside, List.filter_map, Function.comp_def, partsOver_renumber]

theorem all_isInvariant_renumber (F : Forest) (es : List Expr) :
    (es.map (Expr.renumber number)).all (Expr.isInvariant F l) = es.all (Expr.isInvariant F l) := by
  simp [List.all_map, Function.comp_def, Expr.isInvariant_renumber]

theorem leader_renumber (F : Forest) (terms : List Expr) : leader F (terms.map (Expr.renumber number)) = leader F terms := by
  simp [leader, List.filterMap_map]

/-- The term without its constant factor gets other numbers. -/
def renumberTerm (number : Value → Nat) (t : Int64 × Expr) : Int64 × Expr :=
  (t.1, t.2.renumber number)

variable {numbers : List Value} (distinct : numbers.Nodup)
include distinct

theorem addLike_renumber (coeff : Int64) {base : Expr} (formed : base.Formed numbers) {acc : List (Int64 × Expr)}
    (all : ∀ t ∈ acc, t.2.Formed numbers) :
    addLike coeff (base.renumber number) (acc.map (renumberTerm number)) =
      (addLike coeff base acc).map (renumberTerm number) := by
  induction acc with
  | nil => rfl
  | cons t rest ih =>
    have same : t.2.renumber number = base.renumber number ↔ t.2 = base :=
      Expr.renumber_inj distinct (all t (by simp)) formed
    simp only [List.map_cons, renumberTerm, addLike, same]
    split
    · rfl
    · rw [List.map_cons, ← ih fun t member => all t (by simp [member])]
      rfl

theorem mergeLike_renumber {terms : List (Int64 × Expr)} (all : ∀ t ∈ terms, t.2.Formed numbers) :
    mergeLike (terms.map (renumberTerm number)) = (mergeLike terms).map (renumberTerm number) := by
  -- Each term is added to what was merged before it, whatever that is.
  have fold : ∀ (terms acc : List (Int64 × Expr)), (∀ t ∈ terms, t.2.Formed numbers) → (∀ t ∈ acc, t.2.Formed numbers) →
      (terms.map (renumberTerm number)).foldl (fun acc t => addLike t.1 t.2 acc) (acc.map (renumberTerm number)) =
        (terms.foldl (fun acc t => addLike t.1 t.2 acc) acc).map (renumberTerm number) := by
    intro terms
    induction terms with
    | nil => exact fun _ _ _ => rfl
    | cons t rest ih =>
      intro acc all allAcc
      have first : addLike (renumberTerm number t).1 (renumberTerm number t).2 (acc.map (renumberTerm number)) = _ :=
        addLike_renumber distinct t.1 (all t (by simp)) allAcc
      rw [List.map_cons, List.foldl_cons, List.foldl_cons, first]
      exact ih _ (fun t member => all t (by simp [member])) (forall_mem_addLike t.1 (all t (by simp)) allAcc)
  exact fold terms [] all (by simp)

end

end LoopConflict.Evolution
