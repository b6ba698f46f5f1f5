import LoopConflict.Proofs.Evolution.Meaning

/-!
Sums and products have an answer in every context. The depth of calls that they are given suffices, because
each call is for something lighter than the one that makes it (`Build.answers_plan`): a constant factor weighs
nothing, so that it can be distributed, and opening recurrences sets free what merging them takes.
The answer means what the operands do together (`arithmetic_keeps_value`).
-/
namespace LoopConflict.Evolution

open Loop (Forest LoopId)

/-- What it weighs to hold so many parts together. -/
def bond (parts : Nat) : Nat :=
  if parts ≤ 1 then 0 else 1

theorem bond_le_one (parts : Nat) : bond parts ≤ 1 := by
  unfold bond
  split <;> omega

theorem bond_mono {m n : Nat} (le : m ≤ n) : bond m ≤ bond n := by
  unfold bond
  split <;> split <;> omega

/-- Two units for each part are enough for two bonds and two units more. -/
theorem bond_room {n : Nat} (some : 0 < n) : 2 * bond n + 2 ≤ 2 * n := by
  unfold bond
  split <;> omega

theorem bond_of_two_le {n : Nat} (several : 2 ≤ n) : bond n = 1 := by
  unfold bond
  rw [if_neg (by omega)]

namespace Expr

mutual

/-- The weight of an expression. Constants weigh nothing, neither alone nor as factors. -/
def weight : Expr → Nat
  | .const _ => 0
  | .unknown _ _ => 1
  | .recur _ s t => s.weight + t.weight + 2
  | .sum _ ts => weights ts + 1
  | .product _ ts => weights ts + bond ts.length

def weights : List Expr → Nat
  | [] => 0
  | e :: es => e.weight + weights es

end

theorem weights_eq_tally (es : List Expr) : weights es = tally weight es := by
  induction es with
  | nil => rfl
  | cons e es ih => rw [weights, tally, ih]

theorem weights_append (es es' : List Expr) : weights (es ++ es') = weights es + weights es' := by
  simp only [weights_eq_tally, tally_append]

theorem weights_perm {es es' : List Expr} (perm : es.Perm es') : weights es = weights es' := by
  rw [weights_eq_tally, weights_eq_tally, tally_perm perm]

theorem weight_le_weights {e : Expr} {es : List Expr} (member : e ∈ es) : e.weight ≤ weights es := by
  induction es with
  | nil => cases member
  | cons first rest ih =>
    rcases List.mem_cons.mp member with rfl | later
    · simp [weights]
    · have := ih later
      simp only [weights]
      omega

mutual

/-- An expression weighs less than twice its size. -/
theorem weight_lt : ∀ e : Expr, e.weight < 2 * e.size
  | .const _ => by simp [weight, size]
  | .unknown _ _ => by simp [weight, size]
  | .recur _ s t => by
    have := weight_lt s
    have := weight_lt t
    simp only [weight, size]
    omega
  | .sum _ ts => by
    have := weights_le ts
    simp only [weight, size]
    omega
  | .product _ ts => by
    have := weights_le ts
    have := bond_le_one ts.length
    simp only [weight, size]
    omega

theorem weights_le : ∀ es : List Expr, weights es ≤ 2 * sizes es
  | [] => by simp [weights, sizes]
  | e :: es => by
    have := weight_lt e
    have := weights_le es
    simp only [weights, sizes]
    omega

end

theorem weight_sumOf (terms : List Expr) : (sumOf terms).weight = weights terms + 1 := by
  rw [← weights_perm (ordered_perm terms), sumOf]
  split
  · rename_i first
    rw [first]
    split <;> simp [weight, weights]
  · simp [weight]

/-! ### Opened sums and products -/

/-- What a sum of a constant and terms weighs at most. -/
def sumWeight (split : Int64 × List Expr) : Nat :=
  weights split.2 + bond (split.2.length + if split.1 = 0 then 0 else 1)

/-- What a product of factors and a constant weighs at most. -/
def productWeight (factors : List Expr) : Nat :=
  weights factors + bond factors.length

theorem sumWeight_le (split : Int64 × List Expr) : sumWeight split ≤ weights split.2 + 1 :=
  Nat.add_le_add_left (bond_le_one _) _

mutual

theorem weights_summands : ∀ e : Expr, weights e.summands.2 ≤ e.weight
  | .const _ => by simp [summands, weights]
  | .sum _ ts => by
    have := weights_summandsOf ts
    simp only [summands, weight]
    omega
  | .unknown _ _ => by simp [summands, weights]
  | .recur _ _ _ => by simp [summands, weights]
  | .product _ _ => by simp [summands, weights]

theorem weights_summandsOf : ∀ es : List Expr, weights (summandsOf es).2 ≤ weights es
  | [] => by simp [summandsOf, weights]
  | e :: es => by
    have := weights_summands e
    have := weights_summandsOf es
    simp only [summandsOf, weights, weights_append]
    omega

end

/-- An expression that is read as a sum does not get heavier. -/
theorem sumWeight_summands (e : Expr) : sumWeight e.summands ≤ e.weight := by
  cases e with
  | const n => by_cases zero : n = 0 <;> simp [summands, sumWeight, weights, weight, bond, zero]
  | sum k ts =>
    have := weights_summandsOf ts
    have := sumWeight_le (summands (.sum k ts))
    simp only [summands, weight] at *
    omega
  | _ => simp [summands, sumWeight, weights, bond]

theorem sumWeight_summandsOf (es : List Expr) : sumWeight (summandsOf es) ≤ weights es + bond es.length := by
  match es with
  | [] => simp [summandsOf, sumWeight, weights, bond]
  | [e] =>
    have := sumWeight_summands e
    simp only [summandsOf, weights, List.append_nil, Int64.add_zero, List.length_singleton, bond]
    simpa using this
  | e :: e' :: es =>
    have := sumWeight_le (summandsOf (e :: e' :: es))
    have := weights_summandsOf (e :: e' :: es)
    rw [bond_of_two_le (by simp)]
    omega

theorem summandsOf_append (es more : List Expr) : summandsOf (es ++ more) =
    ((summandsOf es).1 + (summandsOf more).1, (summandsOf es).2 ++ (summandsOf more).2) := by
  induction es with
  | nil => simp [summandsOf]
  | cons e es ih => simp [summandsOf, ih, Int64.add_assoc]

theorem summandsOf_append_const (es : List Expr) (k : Int64) :
    summandsOf (es ++ [.const k]) = ((summandsOf es).1 + k, (summandsOf es).2) := by
  simp [summandsOf_append, summandsOf, summands]

/-- A constant that is added weighs nothing unless it is the second term. -/
theorem sumWeight_summandsOf_const (es : List Expr) (k : Int64) :
    sumWeight (summandsOf (es ++ [.const k])) ≤ weights es + bond (es.length + if k = 0 then 0 else 1) := by
  by_cases zero : k = 0
  · have := sumWeight_summandsOf es
    simpa [summandsOf_append_const, zero] using this
  · match es with
    | [] => simp [summandsOf, summands, sumWeight, weights, bond, zero]
    | e :: es =>
      have := sumWeight_le (summandsOf (e :: es ++ [.const k]))
      have := weights_summandsOf (e :: es ++ [.const k])
      simp only [weights_append, weights, weight] at this
      rw [if_neg zero, bond_of_two_le (by simp), weights]
      omega

mutual

/-- An expression that is read as a product does not get heavier. -/
theorem productWeight_factors : ∀ e : Expr, productWeight e.factors.2 ≤ e.weight
  | .const _ => by simp [factors, productWeight, weights, bond]
  | .product _ ts => (weights_factorsOf ts).2
  | .unknown _ _ => by simp [factors, productWeight, weights, bond]
  | .recur _ _ _ => by simp [factors, productWeight, weights, bond]
  | .sum _ _ => by simp [factors, productWeight, weights, bond]

theorem weights_factorsOf : ∀ es : List Expr,
    weights (factorsOf es).2 ≤ weights es ∧ productWeight (factorsOf es).2 ≤ productWeight es
  | [] => by simp [factorsOf]
  | e :: es => by
    have first := productWeight_factors e
    obtain ⟨rest, _⟩ := weights_factorsOf es
    have all : weights (factorsOf (e :: es)).2 ≤ weights (e :: es) := by
      simp only [factorsOf, weights, weights_append, productWeight] at *
      omega
    refine ⟨all, ?_⟩
    cases es with
    | nil => simpa [factorsOf, productWeight, weights, bond] using first
    | cons e' es =>
      have := bond_le_one (factorsOf (e :: e' :: es)).2.length
      simp only [productWeight]
      rw [bond_of_two_le (n := (e :: e' :: es).length) (by simp)]
      omega

end

end Expr

open LoopConflict.Evolution.Expr (weights sumWeight productWeight weights_append weights_eq_tally weight_le_weights)

/-- What expressions that are put together weigh at most. -/
def Combination.weight : Combination → List Expr → Nat
  | .sum, ops => sumWeight (Expr.summandsOf ops)
  | .product, ops => productWeight (Expr.factorsOf ops).2

theorem Combination.weight_sum_le (ops : List Expr) : Combination.weight .sum ops ≤ weights ops + 1 :=
  Nat.le_trans (Expr.sumWeight_summandsOf ops) (Nat.add_le_add_left (bond_le_one _) _)

/-- A constant factor does not add to the weight. -/
theorem Combination.weight_scaled (k : Int64) (e : Expr) : Combination.weight .product [.const k, e] ≤ e.weight := by
  have := Expr.productWeight_factors e
  simpa [Combination.weight, Expr.factorsOf, Expr.factors] using this

/-! ### Like terms -/

theorem weights_mergeLike (terms : List (Int64 × Expr)) :
    weights ((mergeLike terms).map (·.2)) ≤ weights (terms.map (·.2)) ∧ (mergeLike terms).length ≤ terms.length := by
  have merged := sublist_mergeLike terms
  refine ⟨?_, by simpa using merged.length_le⟩
  rw [weights_eq_tally, weights_eq_tally]
  exact tally_sublist merged

/-! ### Parts of recurrences -/

/-- Opening the recurrences over a loop sets two units free for each. -/
theorem weights_parts (l : LoopId) (terms : List Expr) :
    weights terms = weights (termsBeside l terms) + weights (startsOver l terms) + weights (stepsOver l terms) +
        2 * (startsOver l terms).length ∧
      terms.length = (termsBeside l terms).length + (startsOver l terms).length := by
  constructor
  · simp only [weights_eq_tally]
    exact tally_parts (fun s t => rfl) terms
  · simpa [startsOver] using (perm_parts l terms).length_eq.symm

theorem length_stepsOver (l : LoopId) (terms : List Expr) : (stepsOver l terms).length = (startsOver l terms).length := by
  simp [stepsOver, startsOver]

/-- The loop of a leader has recurrences. -/
theorem length_startsOver_pos {F : Forest} {terms : List Expr} {l : LoopId} (leading : leader F terms = some l) :
    0 < (startsOver l terms).length := by
  obtain ⟨s, t, member⟩ := leader_mem leading
  exact List.length_pos_of_mem (List.mem_map_of_mem (List.mem_filterMap.mpr ⟨_, member, if_pos rfl⟩))

section

variable {l : LoopId} {terms : List Expr} (found : 0 < (startsOver l terms).length)
include found

/-- What opening recurrences sets free is enough to merge them. -/
theorem weight_merged :
    Combination.weight .sum (startsOver l terms) + Combination.weight .sum (stepsOver l terms) + 2 ≤
      weights (startsOver l terms) + weights (stepsOver l terms) + 2 * (startsOver l terms).length := by
  have starts := Expr.sumWeight_summandsOf (startsOver l terms)
  have steps := Expr.sumWeight_summandsOf (stepsOver l terms)
  have room := bond_room found
  rw [length_stepsOver] at steps
  simp only [Combination.weight]
  omega

/-- It is enough as well if the start takes in the other terms and the constant. -/
theorem weight_gathered (k : Int64) :
    Combination.weight .sum (startsOver l terms ++ termsBeside l terms ++ [.const k]) +
        Combination.weight .sum (stepsOver l terms) + 2 ≤
      weights terms + bond (terms.length + if k = 0 then 0 else 1) := by
  obtain ⟨weigh, count⟩ := weights_parts l terms
  have start := Expr.sumWeight_summandsOf_const (startsOver l terms ++ termsBeside l terms) k
  have steps := Expr.sumWeight_summandsOf (stepsOver l terms)
  have room := bond_room found
  rw [weights_append, List.length_append, Nat.add_comm (startsOver l terms).length, ← count] at start
  rw [length_stepsOver] at steps
  simp only [Combination.weight]
  omega

end

/-! ### Making expressions -/

theorem weight_recurred (l : LoopId) (start step : Expr) :
    (recurred l start step).weight ≤ start.weight + step.weight + 2 := by
  unfold recurred
  split
  · omega
  · exact Nat.le_refl _

theorem weights_andConstant (k : Int64) (terms : List Expr) : weights (andConstant k terms) = weights terms ∧
    (andConstant k terms).length = terms.length + if k = 0 then 0 else 1 := by
  unfold andConstant
  split <;> simp [weights_append, weights, Expr.weight]

theorem weight_addedUp (terms : List Expr) : (addedUp terms).weight ≤ weights terms + bond terms.length := by
  match terms with
  | [] => simp [addedUp, Expr.weight]
  | [e] => simp [addedUp, weights]
  | e :: e' :: more =>
    rw [bond_of_two_le (by simp)]
    exact Nat.le_of_eq (Expr.weight_sumOf _)

theorem weights_withConstant (k : Int64) (terms : List Expr) : weights (Expr.withConstant 0 k terms) = weights terms := by
  unfold Expr.withConstant
  split <;> simp [weights, Expr.weight]

variable {α : Type}

/-- There is an answer, whatever is recorded before, and it satisfies the condition. -/
def Build.Answers (x : Build α) (P : α → Prop) : Prop :=
  ∀ t, ∃ y t', x t = some (y, t') ∧ P y

/-- Expressions of at most the given weight are put together. -/
def Handles (self : Callee) (op : Combination) (w : Nat) : Prop :=
  ∀ ops, weights ops ≤ w → (self op ops).Answers fun e => e.weight ≤ op.weight ops

section

variable {self : Callee} {w : Nat}

section

variable (products : Handles self .product w)
include products

theorem Handles.scale (k : Int64) {e : Expr} (light : e.weight ≤ w) (t : Table) :
    ∃ e' t', self .product [.const k, e] t = some (e', t') ∧ e'.weight ≤ e.weight := by
  obtain ⟨e', t', made, le⟩ := products [.const k, e] (by simpa [weights, Expr.weight] using light) t
  exact ⟨e', t', made, Nat.le_trans le (Combination.weight_scaled k e)⟩

theorem exists_splits {e : Expr} (light : e.weight ≤ w) (t : Table) :
    ∃ p t', Splits self e t p t' ∧ p.2.weight ≤ e.weight := by
  by_cases plain : ∀ k factors, e = .product k factors → k = 1
  · exact ⟨(1, e), t, .whole plain, Nat.le_refl _⟩
  · simp only [not_forall] at plain
    obtain ⟨k, factors, rfl, other⟩ := plain
    have opened := (Expr.weights_factorsOf factors).2
    simp only [Expr.weight] at light ⊢
    obtain ⟨base, t', isBase, le⟩ := products factors (by omega) t
    exact ⟨(k, base), t', .product other isBase, Nat.le_trans le opened⟩

theorem exists_scales {p : Int64 × Expr} (light : p.2.weight ≤ w) (t : Table) :
    ∃ out t', Scales self p t out t' ∧ weights out ≤ p.2.weight ∧ out.length ≤ 1 := by
  obtain ⟨k, e⟩ := p
  by_cases zero : k = 0
  · subst zero
    exact ⟨[], t, .zero, by simp [weights], by simp⟩
  · by_cases one : k = 1
    · subst one
      exact ⟨[e], t, .one, by simp [weights], by simp⟩
    · obtain ⟨e', t', made, le⟩ := products.scale k light (t.record (.const k) false)
      exact ⟨[e'], t', .times zero one made, by simpa [weights] using le, by simp⟩

theorem exists_combines {terms : List Expr} (light : weights terms ≤ w) (t : Table) :
    ∃ out t', Combines self terms t out t' ∧ weights out ≤ weights terms ∧ out.length ≤ terms.length := by
  have each : ∀ e ∈ terms, e.weight ≤ w := fun e member => Nat.le_trans (weight_le_weights member) light
  obtain ⟨parts, t₁, split, bases⟩ := Chain.exists_of_each (fun e member => exists_splits products (each e member)) t
  have whole : weights (parts.map (·.2)) ≤ weights terms ∧ parts.length = terms.length := by
    clear light each split
    induction bases with
    | nil => simp [weights]
    | cons here _ ih =>
      simp only [List.map_cons, weights, List.length_cons]
      omega
  have merged := weights_mergeLike parts
  have light : ∀ p ∈ mergeLike parts, p.2.weight ≤ w := by
    intro p member
    have := weight_le_weights (List.mem_map_of_mem (f := (·.2)) member)
    omega
  obtain ⟨lists, t₂, scale, scaled⟩ := Chain.exists_of_each (fun p member => exists_scales products (light p member)) t₁
  have flat : weights lists.flatten ≤ weights ((mergeLike parts).map (·.2)) ∧
      lists.flatten.length ≤ (mergeLike parts).length := by
    clear merged light scale
    generalize mergeLike parts = like at scaled
    induction scaled with
    | nil => simp [weights]
    | cons here _ ih =>
      simp only [List.flatten_cons, weights_append, List.length_append, List.map_cons, weights, List.length_cons]
      omega
  exact ⟨_, t₂, .intro split scale, by omega, by omega⟩

theorem exists_finishSum (k : Int64) {terms : List Expr} (light : weights terms ≤ w) (t : Table) :
    ∃ e t', (finishSum k terms).Leads self t e t' ∧ e.weight ≤ sumWeight (k, terms) := by
  obtain ⟨out, t₁, combines, lighter, fewer⟩ := exists_combines products light t
  refine ⟨_, _, Plan.leads_finishSum.mpr ⟨out, t₁, combines, Plan.leads_addUp.mpr ⟨rfl, rfl⟩⟩, ?_⟩
  have sum := weight_addedUp (andConstant k out)
  have limit := bond_mono (Nat.add_le_add_right fewer (if k = 0 then 0 else 1))
  rw [(weights_andConstant k out).1, (weights_andConstant k out).2] at sum
  simp only [sumWeight]
  omega

end

theorem exists_sums (F : Forest) (products : Handles self .product w) (sums : ∀ w' < w, Handles self .sum w')
    (k : Int64) {terms : List Expr} (light : weights terms ≤ w) (t : Table) :
    ∃ e t', Sums self F k terms t e t' ∧ e.weight ≤ sumWeight (k, terms) := by
  cases leading : leader F terms with
  | none =>
    obtain ⟨e, t', isSum, le⟩ := exists_finishSum products k light t
    exact ⟨e, t', .plain leading isSum, le⟩
  | some l =>
    obtain ⟨weigh, count⟩ := weights_parts l terms
    have found := length_startsOver_pos leading
    have lighter : ∀ ops, weights ops < w → (self .sum ops).Answers fun e => e.weight ≤ Combination.weight .sum ops :=
      fun ops less => sums (weights ops) less ops (Nat.le_refl _)
    by_cases steady : (termsBeside l terms).all (Expr.isInvariant F l) = true
    · have gathered := weight_gathered found k
      have free : weights (startsOver l terms ++ termsBeside l terms ++ [.const k]) < w := by
        simp only [weights_append, weights, Expr.weight]
        omega
      obtain ⟨start, t₁, isStart, leStart⟩ := lighter _ free (t.record (.const k) false)
      obtain ⟨step, t₂, isStep, leStep⟩ := lighter (stepsOver l terms) (by omega) t₁
      refine ⟨_, _, .gathered leading steady isStart isStep (Plan.leads_recurrence.mpr ⟨rfl, rfl⟩), ?_⟩
      have recur := weight_recurred l start step
      simp only [sumWeight]
      omega
    · have merge := weight_merged found
      obtain ⟨start, t₁, isStart, leStart⟩ := lighter (startsOver l terms) (by omega) t
      obtain ⟨step, t₂, isStep, leStep⟩ := lighter (stepsOver l terms) (by omega) t₁
      have recur := weight_recurred l start step
      obtain ⟨t₃, isMerged⟩ : ∃ t₃, (recurrence l start step (noneWraps l terms)).Leads self t₂ (recurred l start step) t₃ :=
        ⟨_, Plan.leads_recurrence.mpr ⟨rfl, rfl⟩⟩
      have lead : ∀ {e t'}, (addMerged k (termsBeside l terms) (recurred l start step)).Leads self t₃ e t' →
          Sums self F k terms t e t' :=
        .merged leading (by simpa using steady) isStart isStep isMerged
      by_cases recurs : (recurred l start step).loop?.isSome = true
      · have rests := weights_append (termsBeside l terms) [recurred l start step]
        simp only [weights] at rests
        have light : weights (termsBeside l terms ++ [recurred l start step]) ≤ w := by omega
        obtain ⟨e, t', isSum, le⟩ := exists_finishSum products k light t₃
        refine ⟨e, t', lead (Plan.leads_addMerged.mpr (.inl ⟨recurs, isSum⟩)), ?_⟩
        have fewer := bond_mono (m := (termsBeside l terms).length + 1 + if k = 0 then 0 else 1)
          (n := terms.length + if k = 0 then 0 else 1) (by omega)
        simp only [sumWeight, List.length_append, List.length_singleton] at le ⊢
        omega
      · -- No recurrence is left, so the step was zero and its weight is free for the constant.
        have isStart : recurred l start step = start := by
          unfold recurred at recurs ⊢
          split
          · rfl
          · simp_all [Expr.loop?]
        rw [isStart] at recurs lead
        have all := weights_append (termsBeside l terms) [start, .const k]
        simp only [weights, Expr.weight] at all
        obtain ⟨e, t', isSum, le⟩ := lighter (termsBeside l terms ++ [start, .const k]) (by omega)
          (t₃.record (.const k) false)
        refine ⟨e, t', lead (Plan.leads_addMerged.mpr (.inr ⟨by simpa using recurs, isSum⟩)), ?_⟩
        have small := Combination.weight_sum_le (termsBeside l terms ++ [start, .const k])
        simp only [sumWeight]
        omega

theorem exists_distributes (below : ∀ w' < w, ∀ op, Handles self op w') (k : Int64) {e : Expr} (light : e.weight ≤ w)
    (t : Table) : ∃ e' t', Distributes self k e t e' t' ∧ e'.weight ≤ e.weight := by
  cases e with
  | recur l s x =>
    simp only [Expr.weight] at light ⊢
    have products := below (w - 1) (by omega) .product
    obtain ⟨start, t₁, isStart, leStart⟩ := products.scale k (e := s) (by omega) (t.record (.const k) false)
    obtain ⟨step, t₂, isStep, leStep⟩ := products.scale k (e := x) (by omega) t₁
    have recur := weight_recurred l start step
    exact ⟨_, _, .recur isStart isStep (Plan.leads_recurrence.mpr ⟨rfl, rfl⟩), by omega⟩
  | sum n terms =>
    simp only [Expr.weight] at light ⊢
    have whole := weights_withConstant n terms
    have each : ∀ x ∈ Expr.withConstant 0 n terms, x.weight ≤ w - 1 := by
      intro x member
      have := weight_le_weights member
      omega
    obtain ⟨out, t₁, isOut, scaled⟩ := Chain.exists_of_each
      (fun x member => (below (w - 1) (by omega) .product).scale k (each x member)) (t.record (.const k) false)
    have distributed := tally_le_of_forall₂ scaled
    rw [← weights_eq_tally, ← weights_eq_tally] at distributed
    obtain ⟨e, t', isSum, le⟩ := below (w - 1) (by omega) .sum out (by omega) t₁
    have small := Combination.weight_sum_le out
    exact ⟨e, t', .sum isOut isSum, by omega⟩
  | _ =>
    refine ⟨_, _, .other (by simp) (by simp) (Plan.leads_multiplyOut.mpr ⟨rfl, rfl⟩), ?_⟩
    simp [Expr.weight, Expr.ordered, Expr.place, weights, bond]

theorem exists_multiplies (below : ∀ w' < w, ∀ op, Handles self op w') (k : Int64) {factors : List Expr}
    (light : weights factors ≤ w) (t : Table) :
    ∃ e t', Multiplies self k factors t e t' ∧ e.weight ≤ productWeight factors := by
  by_cases zero : k = 0
  · exact ⟨_, _, .zero zero, by simp [Expr.weight]⟩
  · match factors with
    | [] => exact ⟨_, _, .const zero, by simp [Expr.weight]⟩
    | [e] =>
      have alone : productWeight [e] = e.weight := by simp [productWeight, weights, bond]
      rw [alone]
      by_cases one : k = 1
      · exact ⟨e, t, .same one, Nat.le_refl _⟩
      · obtain ⟨e', t', distributes, le⟩ := exists_distributes below k (e := e) (by simpa [weights] using light) t
        exact ⟨e', t', .single zero one distributes, le⟩
    | x :: y :: more =>
      refine ⟨_, _, .several zero (Plan.leads_multiplyOut.mpr ⟨rfl, rfl⟩), Nat.le_of_eq ?_⟩
      simp only [Expr.weight, productWeight, Expr.weights_perm (Expr.ordered_perm _), (Expr.ordered_perm _).length_eq]

end

namespace Build

/-- How deep the calls for expressions of a weight go. A sum asks for products of its own weight. -/
def depthFor : Combination → Nat → Nat
  | .sum, w => 2 * w + 2
  | .product, w => 2 * w + 1

/-- A call has an answer if all calls for something lighter have. -/
theorem answers_plan {self : Callee} (F : Forest) (op : Combination) {ops : List Expr}
    (lighter : ∀ op' ops', depthFor op' (weights ops') < depthFor op (weights ops) →
      (self op' ops').Answers fun e => e.weight ≤ op'.weight ops') :
    ((op.plan F ops).run self).Answers fun e => e.weight ≤ op.weight ops := by
  intro t
  cases op with
  | sum =>
    have products : Handles self .product (weights ops) := by
      intro ops' light
      exact lighter .product ops' (by simp only [depthFor]; omega)
    have sums : ∀ w' < weights ops, Handles self .sum w' := by
      intro w' less ops' light
      exact lighter .sum ops' (by simp only [depthFor]; omega)
    obtain ⟨e, t', isSum, le⟩ := exists_sums F products sums _ (Expr.weights_summandsOf ops) t
    exact ⟨e, t', Plan.leads_sumPlan.mpr isSum, le⟩
  | product =>
    have below : ∀ w' < weights ops, ∀ op, Handles self op w' := by
      intro w' less op' ops' light
      refine lighter op' ops' ?_
      cases op' <;> simp only [depthFor] <;> omega
    obtain ⟨e, t', isProduct, le⟩ := exists_multiplies below _ (Expr.weights_factorsOf ops).1 t
    exact ⟨e, t', Plan.leads_productPlan.mpr isProduct, le⟩

theorem depthFor_pos (op : Combination) (w : Nat) : 0 < depthFor op w := by
  cases op <;> exact Nat.succ_pos _

theorem answers_canonical (F : Forest) (depth : Nat) (op : Combination) {ops : List Expr}
    (deep : depthFor op (weights ops) ≤ depth) :
    (canonical F depth op ops).Answers fun e => e.weight ≤ op.weight ops := by
  induction depth generalizing op ops with
  | zero =>
    have := depthFor_pos op (weights ops)
    omega
  | succ depth ih => exact answers_plan F op fun op' ops' less => ih op' (by omega)

end Build

/-- The depth that sums and products are given suffices. -/
theorem depthFor_le_enough (op : Combination) (ops : List Expr) : Build.depthFor op (weights ops) ≤ enough ops := by
  have := Expr.weights_le ops
  cases op <;> simp only [Build.depthFor, enough] <;> omega

/-- Putting expressions together never falls back on leaving them as they are. -/
theorem Query.exists_combine (op : Combination) (ops : List Expr) (c : Context) :
    ∃ e t, canonical c.forest (enough ops) op ops c.table = some (e, t) ∧ combine op ops c = (e, { c with table := t }) := by
  obtain ⟨e, t, found, _⟩ := Build.answers_canonical c.forest _ op (depthFor_le_enough op ops) c.table
  refine ⟨e, t, found, build_of_run ?_⟩
  rw [run_request]
  exact found

/-- What holds of all that is put together holds of the answer in a context. -/
theorem Fulfils.combine {c : Context} {requires : List Expr → Prop} {promises : Combination → List Expr → Expr → Prop}
    (each : ∀ depth, Fulfils requires promises (canonical c.forest depth)) (op : Combination) {ops : List Expr}
    (given : requires ops) : promises op ops (Query.combine op ops c).1 := by
  obtain ⟨e, t, found, combined⟩ := Query.exists_combine op ops c
  rw [combined]
  exact each _ found given

/-- Putting expressions together gives the same in every context of a function. -/
theorem Query.combine_eq_of_forest {c c' : Context} (forest : c'.forest = c.forest) (op : Combination) (ops : List Expr) :
    (combine op ops c').1 = (combine op ops c).1 := by
  obtain ⟨e, t, found, same⟩ := exists_combine op ops c
  obtain ⟨e', t', found', same'⟩ := exists_combine op ops c'
  have agree := Build.agree_canonical c.forest (enough ops) op ops c'.table c.table
  rw [← forest, found', forest, found] at agree
  rw [same, same']
  exact Option.some.inj agree

/-- Sums, products, differences and negations have an answer in every context, and it means what they say of
    the meanings of their operands. -/
theorem arithmetic_keeps_value (c : Context) (a : Assignment) (ops : List Expr) (x y : Expr) :
    (∃ e t, canonical c.forest (enough ops) .sum ops c.table = some (e, t) ∧
      Query.sum ops c = (e, { c with table := t }) ∧ e.value a = Expr.total a ops) ∧
    (∃ e t, canonical c.forest (enough ops) .product ops c.table = some (e, t) ∧
      Query.product ops c = (e, { c with table := t }) ∧ e.value a = Expr.totalProduct a ops) ∧
    (Query.difference x y c).1.value a = x.value a - y.value a ∧
    (Query.negate x c).1.value a = -x.value a := by
  have whole : ∀ e : Expr, Means a (fun _ => True) (fun _ => True) (e.value a) e := fun e => ⟨rfl, e.over_true⟩
  have answered : ∀ op : Combination, ∃ e t, canonical c.forest (enough ops) op ops c.table = some (e, t) ∧
      Query.combine op ops c = (e, { c with table := t }) ∧ e.value a = op.value a ops := by
    intro op
    obtain ⟨e, t, found, combined⟩ := Query.exists_combine op ops c
    have value := Query.value_combine c a op ops
    rw [combined] at value
    exact ⟨e, t, found, combined, value⟩
  exact ⟨answered .sum, answered .product, (Query.means_difference c (whole x) (whole y)).value,
    (Query.means_negate c (whole x)).value⟩

end LoopConflict.Evolution
