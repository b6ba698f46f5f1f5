import LoopConflict.Proofs.Evolution.Depth

/-!
The recurrences of an expression, weighed by their loops. Sums and products have no recurrences that their operands do
not have: those over one loop are merged, and only constant factors are distributed. So whatever the loops weigh, an
expression that is put together does not weigh more than its operands (`Query.loopWeight_combine`).
-/
namespace LoopConflict.Evolution

open Loop (Forest LoopId)
open Program (Value)

variable {w : LoopId → Nat}

namespace Expr

mutual

/-- The weights of the loops of all recurrences in the expression, added up. -/
def loopWeight (w : LoopId → Nat) : Expr → Nat
  | .const _ => 0
  | .unknown _ _ => 0
  | .recur l s t => s.loopWeight w + t.loopWeight w + w l
  | .sum _ ts => loopWeights w ts
  | .product _ ts => loopWeights w ts

def loopWeights (w : LoopId → Nat) : List Expr → Nat
  | [] => 0
  | e :: es => e.loopWeight w + loopWeights w es

end

/-- The number of recurrences over a loop in the expression. -/
def recurrencesOver (l : LoopId) (e : Expr) : Nat :=
  e.loopWeight fun m => if m = l then 1 else 0

theorem loopWeights_eq_tally (w : LoopId → Nat) (es : List Expr) : loopWeights w es = tally (loopWeight w) es := by
  induction es with
  | nil => rfl
  | cons e es ih => rw [loopWeights, tally, ih]

theorem loopWeights_append (w : LoopId → Nat) (es es' : List Expr) :
    loopWeights w (es ++ es') = loopWeights w es + loopWeights w es' := by
  simp only [loopWeights_eq_tally, tally_append]

theorem loopWeight_sumOf (w : LoopId → Nat) (terms : List Expr) : (sumOf terms).loopWeight w = loopWeights w terms := by
  rw [loopWeights_eq_tally, ← tally_perm (ordered_perm terms), ← loopWeights_eq_tally, sumOf]
  split
  · rename_i first
    rw [first]
    split <;> simp [loopWeight, loopWeights]
  · rfl

mutual

theorem loopWeights_summands (w : LoopId → Nat) : ∀ e : Expr, loopWeights w e.summands.2 = e.loopWeight w
  | .const _ => rfl
  | .sum _ ts => loopWeights_summandsOf w ts
  | .unknown _ _ => rfl
  | .recur _ _ _ => rfl
  | .product _ _ => rfl

theorem loopWeights_summandsOf (w : LoopId → Nat) : ∀ es : List Expr, loopWeights w (summandsOf es).2 = loopWeights w es
  | [] => rfl
  | e :: es => by
    rw [summandsOf, loopWeights_append, loopWeights_summands w e, loopWeights_summandsOf w es, loopWeights]

end

mutual

theorem loopWeights_factors (w : LoopId → Nat) : ∀ e : Expr, loopWeights w e.factors.2 = e.loopWeight w
  | .const _ => rfl
  | .product _ ts => loopWeights_factorsOf w ts
  | .unknown _ _ => rfl
  | .recur _ _ _ => rfl
  | .sum _ _ => rfl

theorem loopWeights_factorsOf (w : LoopId → Nat) : ∀ es : List Expr, loopWeights w (factorsOf es).2 = loopWeights w es
  | [] => rfl
  | e :: es => by
    rw [factorsOf, loopWeights_append, loopWeights_factors w e, loopWeights_factorsOf w es, loopWeights]

end

mutual

/-- What recurrences weigh, in units of `n` for each part, if that is what `k` of them weigh at most. -/
theorem loopWeight_mul_le {k n : Nat} {V : Value → Prop} : ∀ {e : Expr}, e.Over (fun l => w l * k ≤ n) V →
    e.loopWeight w * k ≤ e.size * n
  | .const _, _ => by simp [loopWeight]
  | .unknown _ _, _ => by simp [loopWeight]
  | .recur _ _ _, uses => by
    have := loopWeight_mul_le uses.2.1
    have := loopWeight_mul_le uses.2.2
    have := uses.1
    simp only [loopWeight, size, Nat.add_mul, Nat.one_mul]
    omega
  | .sum _ _, uses => Nat.le_trans (loopWeights_mul_le uses) (Nat.mul_le_mul_right n (Nat.le_succ _))
  | .product _ _, uses => Nat.le_trans (loopWeights_mul_le uses) (Nat.mul_le_mul_right n (Nat.le_succ _))

theorem loopWeights_mul_le {k n : Nat} {V : Value → Prop} : ∀ {es : List Expr}, AllOver (fun l => w l * k ≤ n) V es →
    loopWeights w es * k ≤ sizes es * n
  | [], _ => by simp [loopWeights]
  | _ :: _, uses => by
    have := loopWeight_mul_le uses.1
    have := loopWeights_mul_le uses.2
    simp only [loopWeights, sizes, Nat.add_mul]
    omega

end

end Expr

open LoopConflict.Evolution.Expr (loopWeights loopWeights_append loopWeights_eq_tally)

/-! ### Making expressions -/

theorem loopWeight_recurred (w : LoopId → Nat) (l : LoopId) (start step : Expr) :
    (recurred l start step).loopWeight w ≤ start.loopWeight w + step.loopWeight w + w l := by
  unfold recurred
  split
  · omega
  · exact Nat.le_refl _

theorem loopWeights_andConstant (w : LoopId → Nat) (k : Int64) (terms : List Expr) :
    loopWeights w (andConstant k terms) = loopWeights w terms := by
  unfold andConstant
  split <;> simp [loopWeights_append, loopWeights, Expr.loopWeight]

theorem loopWeight_addedUp (w : LoopId → Nat) (terms : List Expr) : (addedUp terms).loopWeight w = loopWeights w terms := by
  match terms with
  | [] => rfl
  | [e] => simp [addedUp, loopWeights]
  | e :: e' :: more => exact Expr.loopWeight_sumOf w _

theorem loopWeights_withConstant (w : LoopId → Nat) (k : Int64) (terms : List Expr) :
    loopWeights w (Expr.withConstant 0 k terms) = loopWeights w terms := by
  unfold Expr.withConstant
  split <;> simp [loopWeights, Expr.loopWeight]

/-- What is put together does not weigh more than the operands. -/
abbrev KeepsLoopWeight (w : LoopId → Nat) (self : Callee) : Prop :=
  Fulfils (fun _ => True) (fun _ ops e => e.loopWeight w ≤ loopWeights w ops) self

section

variable {self : Callee} (keeps : KeepsLoopWeight w self) {F : Forest} {k : Int64} {ops terms factors : List Expr}
  {e e' : Expr} {t t' : Table}
include keeps

theorem KeepsLoopWeight.scale (isProduct : self .product [.const k, e] t = some (e', t')) :
    e'.loopWeight w ≤ e.loopWeight w := by
  simpa [loopWeights, Expr.loopWeight] using keeps isProduct trivial

theorem Splits.loopWeight_le {p : Int64 × Expr} (splits : Splits self e t p t') : p.2.loopWeight w ≤ e.loopWeight w := by
  cases splits with
  | whole _ => exact Nat.le_refl _
  | product _ isBase => exact keeps isBase trivial

theorem Scales.loopWeights_le {p : Int64 × Expr} {out : List Expr} (scales : Scales self p t out t') :
    loopWeights w out ≤ p.2.loopWeight w := by
  cases scales with
  | zero => exact Nat.zero_le _
  | one => simp [loopWeights]
  | times _ _ isProduct => simpa [loopWeights] using KeepsLoopWeight.scale keeps isProduct

theorem Chain.loopWeights_split {parts : List (Int64 × Expr)} (split : Chain (Splits self) terms t parts t') :
    loopWeights w (parts.map (·.2)) ≤ loopWeights w terms := by
  induction split with
  | nil => exact Nat.le_refl _
  | cons first _ ih => exact Nat.add_le_add (first.loopWeight_le keeps) ih

theorem Chain.loopWeights_scale {parts : List (Int64 × Expr)} {lists : List (List Expr)}
    (scale : Chain (Scales self) parts t lists t') : loopWeights w lists.flatten ≤ loopWeights w (parts.map (·.2)) := by
  induction scale with
  | nil => exact Nat.le_refl _
  | cons first _ ih =>
    rw [List.flatten_cons, loopWeights_append]
    exact Nat.add_le_add (first.loopWeights_le keeps) ih

theorem Combines.loopWeights_le {out : List Expr} (combines : Combines self terms t out t') :
    loopWeights w out ≤ loopWeights w terms := by
  obtain @⟨parts, lists, _, _, _, split, scale⟩ := combines
  have merged : loopWeights w ((mergeLike parts).map (·.2)) ≤ loopWeights w (parts.map (·.2)) := by
    rw [loopWeights_eq_tally, loopWeights_eq_tally]
    exact tally_sublist (sublist_mergeLike parts)
  calc loopWeights w lists.flatten
    _ ≤ loopWeights w ((mergeLike parts).map (·.2)) := scale.loopWeights_scale keeps
    _ ≤ loopWeights w (parts.map (·.2)) := merged
    _ ≤ loopWeights w terms := split.loopWeights_split keeps

theorem loopWeight_finishSum (leads : (finishSum k terms).Leads self t e t') : e.loopWeight w ≤ loopWeights w terms := by
  obtain ⟨out, t₁, combines, isSum⟩ := Plan.leads_finishSum.mp leads
  rw [(Plan.leads_addUp.mp isSum).1, loopWeight_addedUp, loopWeights_andConstant]
  exact combines.loopWeights_le keeps

theorem loopWeight_addMerged {rest : List Expr} {merged : Expr} (leads : (addMerged k rest merged).Leads self t e t') :
    e.loopWeight w ≤ loopWeights w rest + merged.loopWeight w := by
  rcases Plan.leads_addMerged.mp leads with ⟨_, isSum⟩ | ⟨_, isSum⟩
  · simpa [loopWeights_append, loopWeights] using loopWeight_finishSum keeps isSum
  · simpa [loopWeights_append, loopWeights, Expr.loopWeight] using keeps isSum trivial

theorem Sums.loopWeight_le (sums : Sums self F k terms t e t') : e.loopWeight w ≤ loopWeights w terms := by
  -- One of the recurrences that are opened pays for the merged one.
  have parts : ∀ {l}, leader F terms = some l → loopWeights w (termsBeside l terms) + loopWeights w (startsOver l terms) +
      loopWeights w (stepsOver l terms) + w l ≤ loopWeights w terms := by
    intro l leading
    have whole := tally_parts (fun s t => rfl : ∀ s t, Expr.loopWeight w (.recur l s t) = _ + w l) terms
    have merge : w l ≤ w l * (startsOver l terms).length := Nat.le_mul_of_pos_right _ (length_startsOver_pos leading)
    simp only [← loopWeights_eq_tally] at whole
    omega
  cases sums with
  | plain _ isSum => exact loopWeight_finishSum keeps isSum
  | @gathered l start step _ _ _ _ _ leading _ isStart isStep isSum =>
    have parts := parts leading
    have leStart := keeps isStart trivial
    have leStep := keeps isStep trivial
    have recur := loopWeight_recurred w l start step
    simp only [loopWeights_append, loopWeights, Expr.loopWeight] at leStart
    rw [(Plan.leads_recurrence.mp isSum).1]
    omega
  | @merged l start step _ _ _ _ _ _ _ leading _ isStart isStep isMerged isSum =>
    have parts := parts leading
    have leStart := keeps isStart trivial
    have leStep := keeps isStep trivial
    have recur := loopWeight_recurred w l start step
    have all := loopWeight_addMerged keeps isSum
    rw [(Plan.leads_recurrence.mp isMerged).1] at all
    omega

theorem Distributes.loopWeight_le (distributes : Distributes self k e t e' t') : e'.loopWeight w ≤ e.loopWeight w := by
  cases distributes with
  | @recur l _ _ start step _ _ _ _ _ isStart isStep isProduct =>
    have leStart := KeepsLoopWeight.scale keeps isStart
    have leStep := KeepsLoopWeight.scale keeps isStep
    have recur := loopWeight_recurred w l start step
    rw [(Plan.leads_recurrence.mp isProduct).1, Expr.loopWeight]
    omega
  | sum isOut isSum =>
    have scaled := tally_le_of_forall₂ (isOut.forall₂ fun x _ _ _ _ isProduct => KeepsLoopWeight.scale keeps isProduct)
    rw [← loopWeights_eq_tally, ← loopWeights_eq_tally, loopWeights_withConstant] at scaled
    exact Nat.le_trans (keeps isSum trivial) scaled
  | other _ _ isProduct =>
    rw [(Plan.leads_multiplyOut.mp isProduct).1]
    exact Nat.le_refl _

theorem Multiplies.loopWeight_le (multiplies : Multiplies self k factors t e t') :
    e.loopWeight w ≤ loopWeights w factors := by
  cases multiplies with
  | zero _ => exact Nat.zero_le _
  | const _ => exact Nat.zero_le _
  | same _ => simp [loopWeights]
  | single _ _ isProduct => simpa [loopWeights] using isProduct.loopWeight_le keeps
  | several _ isProduct =>
    rw [(Plan.leads_multiplyOut.mp isProduct).1, Expr.loopWeight, loopWeights_eq_tally, loopWeights_eq_tally]
    exact Nat.le_of_eq (tally_perm (Expr.ordered_perm _))

end

theorem keepsLoopWeight_canonical (w : LoopId → Nat) (F : Forest) (depth : Nat) : KeepsLoopWeight w (canonical F depth) := by
  refine fulfils_canonical (fun self keeps op ops t e t' leads _ => ?_) depth
  cases op with
  | sum =>
    rw [← Expr.loopWeights_summandsOf w ops]
    exact (Plan.leads_sumPlan.mp leads).loopWeight_le keeps
  | product =>
    rw [← Expr.loopWeights_factorsOf w ops]
    exact (Plan.leads_productPlan.mp leads).loopWeight_le keeps

/-! ### Questions that make expressions -/

namespace Query

theorem loopWeight_combine (w : LoopId → Nat) (op : Combination) (ops : List Expr) (c : Context) :
    (combine op ops c).1.loopWeight w ≤ loopWeights w ops :=
  Fulfils.combine (keepsLoopWeight_canonical w c.forest) op trivial

theorem loopWeight_product_const (w : LoopId → Nat) (k : Int64) (e : Expr) (c : Context) :
    (product [.const k, e] c).1.loopWeight w ≤ e.loopWeight w := by
  have combined := loopWeight_combine w .product [.const k, e] c
  simp only [loopWeights, Expr.loopWeight, Nat.zero_add, Nat.add_zero] at combined
  exact combined

theorem loopWeight_difference (w : LoopId → Nat) (x y : Expr) (c : Context) :
    (difference x y c).1.loopWeight w ≤ x.loopWeight w + y.loopWeight w := by
  have negated := loopWeight_product_const w (-1) y (const (-1) c).2
  rw [← negate_apply] at negated
  have combined := loopWeight_combine w .sum [x, (negate y c).1] (negate y c).2
  simp only [loopWeights] at combined
  exact Nat.le_trans combined (Nat.add_le_add_left negated _)

end Query

end LoopConflict.Evolution
