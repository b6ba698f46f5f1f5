import LoopConflict.Evolution.Arithmetic
import Mathlib.Data.List.Forall2

/-!
What sums and products can do. A plan that is followed leads from a table to an answer and to another table
(`Plan.Leads`). Said once for each plan, case by case: how terms are split and scaled (`Splits`, `Scales`), how they are
added up (`Sums`) and how factors are multiplied (`Multiplies`). All that holds of sums and products is proved from
these cases, and that there is an answer by giving one.
-/
namespace LoopConflict.Evolution

open Loop (Forest LoopId)

variable {α β : Type} {self : Callee} {t t' : Table} {e : Expr}

/-! ### Plans -/

/-- From the first table, the plan leads to the answer and the second table. -/
def Plan.Leads (self : Callee) (p : Plan α) (t : Table) (a : α) (t' : Table) : Prop :=
  p.run self t = some (a, t')

/-- One after the other, the items lead to the answers. -/
inductive Chain (R : α → Table → β → Table → Prop) : List α → Table → List β → Table → Prop where
  | nil {t : Table} : Chain R [] t [] t
  | cons {a : α} {b : β} {as : List α} {bs : List β} {t t₁ t₂ : Table} (first : R a t b t₁) (rest : Chain R as t₁ bs t₂) :
      Chain R (a :: as) t (b :: bs) t₂

/-- The tables aside, each item has its answer. -/
theorem Chain.forall₂ {R : α → Table → β → Table → Prop} {S : α → β → Prop} {as : List α} {bs : List β}
    (chain : Chain R as t bs t') (each : ∀ a ∈ as, ∀ t b t', R a t b t' → S a b) : List.Forall₂ S as bs := by
  induction chain with
  | nil => exact .nil
  | cons first _ ih => exact .cons (each _ (by simp) _ _ _ first) (ih fun a member => each a (by simp [member]))

theorem Chain.forall_mem {R : α → Table → β → Table → Prop} {P : β → Prop} {as : List α} {bs : List β}
    (chain : Chain R as t bs t') (each : ∀ a ∈ as, ∀ t b t', R a t b t' → P b) : ∀ b ∈ bs, P b := by
  induction chain with
  | nil => simp
  | cons first _ ih =>
    exact List.forall_mem_cons.mpr ⟨each _ (by simp) _ _ _ first, ih fun a member => each a (by simp [member])⟩

/-- There is a chain if each item has an answer whatever the table. -/
theorem Chain.exists_of_each {R : α → Table → β → Table → Prop} {S : α → β → Prop} {as : List α}
    (each : ∀ a ∈ as, ∀ t, ∃ b t', R a t b t' ∧ S a b) (t : Table) :
    ∃ bs t', Chain R as t bs t' ∧ List.Forall₂ S as bs := by
  induction as generalizing t with
  | nil => exact ⟨[], t, .nil, .nil⟩
  | cons a as ih =>
    obtain ⟨b, t₁, first, here⟩ := each a (by simp) t
    obtain ⟨bs, t₂, rest, there⟩ := ih (fun a member => each a (by simp [member])) t₁
    exact ⟨b :: bs, t₂, .cons first rest, .cons here there⟩

namespace Plan

variable {a b : α}

@[simp] theorem leads_pure : (pure a : Plan α).Leads self t b t' ↔ b = a ∧ t' = t := by
  constructor
  · intro leads
    cases leads
    exact ⟨rfl, rfl⟩
  · rintro ⟨rfl, rfl⟩
    rfl

@[simp] theorem leads_bind {p : Plan α} {k : α → Plan β} {c : β} :
    (p >>= k).Leads self t c t' ↔ ∃ a t₁, p.Leads self t a t₁ ∧ (k a).Leads self t₁ c t' := by
  unfold Leads
  rw [run_bind]
  change (p.run self t).bind (fun x => (k x.1).run self x.2) = some (c, t') ↔ _
  simp only [Option.bind_eq_some_iff, Prod.exists]

@[simp] theorem leads_made {e' : Expr} {noWrap : Table → Bool} :
    (made e noWrap).Leads self t e' t' ↔ e' = e ∧ t' = t.record e (noWrap t) := by
  constructor
  · intro leads
    cases leads
    exact ⟨rfl, rfl⟩
  · rintro ⟨rfl, rfl⟩
    rfl

@[simp] theorem leads_request {op : Combination} {ops : List Expr} :
    (request op ops).Leads self t e t' ↔ self op ops t = some (e, t') := by
  rw [Leads, run_request]

@[simp] theorem leads_constant {n : Int64} :
    (constant n).Leads self t e t' ↔ e = .const n ∧ t' = t.record (.const n) false :=
  leads_made

theorem leads_constant_bind {n : Int64} {k : Expr → Plan α} :
    (constant n >>= k).Leads self t a t' ↔ (k (.const n)).Leads self (t.record (.const n) false) a t' :=
  Iff.rfl

theorem leads_mapM {g : α → Plan β} {R : α → Table → β → Table → Prop}
    (each : ∀ a t b t', (g a).Leads self t b t' ↔ R a t b t') {as : List α} {bs : List β} :
    (as.mapM g).Leads self t bs t' ↔ Chain R as t bs t' := by
  induction as generalizing t bs t' with
  | nil =>
    rw [List.mapM_nil, leads_pure]
    constructor
    · rintro ⟨rfl, rfl⟩
      exact .nil
    · intro chain
      cases chain
      exact ⟨rfl, rfl⟩
  | cons a as ih =>
    simp only [List.mapM_cons, leads_bind, leads_pure, each, ih]
    constructor
    · rintro ⟨b, t₁, first, bs, t₂, rest, rfl, rfl⟩
      exact .cons first rest
    · intro chain
      cases chain with
      | cons first rest => exact ⟨_, _, first, _, _, rest, rfl, rfl⟩

end Plan

/-! ### Answers that take no calls -/

/-- The recurrence with the start and the step, or the start if the step is zero. -/
def recurred (l : LoopId) (start step : Expr) : Expr :=
  if step.isZero then start else .recur l start step

/-- The terms and the constant behind them, unless it is zero. -/
def andConstant (k : Int64) (terms : List Expr) : List Expr :=
  if k = 0 then terms else terms ++ [.const k]

/-- The sum of terms of which no two are alike. -/
def addedUp : List Expr → Expr
  | [] => .const 0
  | [e] => e
  | terms => Expr.sumOf terms

namespace Plan

variable {l : LoopId} {start step : Expr} {noWrap : Table → Bool} {k : Int64} {terms factors : List Expr}

theorem leads_recurrence : (recurrence l start step noWrap).Leads self t e t' ↔
    e = recurred l start step ∧ t' = if step.isZero then t else t.record (.recur l start step) (noWrap t) := by
  unfold recurrence recurred
  split
  · exact leads_pure
  · exact leads_made

theorem exists_recurrence (self : Callee) (l : LoopId) (start step : Expr) (noWrap : Table → Bool) (t : Table) :
    ∃ e t', (recurrence l start step noWrap).Leads self t e t' :=
  ⟨_, _, leads_recurrence.mpr ⟨rfl, rfl⟩⟩

theorem leads_addConstant {out : List Expr} : (addConstant k terms).Leads self t out t' ↔
    out = andConstant k terms ∧ t' = if k = 0 then t else t.record (.const k) false := by
  unfold addConstant andConstant
  split
  · exact leads_pure
  · rw [leads_constant_bind, leads_pure]

theorem leads_addUp : (addUp terms).Leads self t e t' ↔ e = addedUp terms ∧
    t' = match terms with
      | [] => t.record (.const 0) false
      | [_] => t
      | terms => t.record (Expr.sumOf terms) false := by
  match terms with
  | [] => exact leads_constant
  | [e] => exact leads_pure
  | e :: e' :: more => exact leads_made

theorem leads_multiplyOut : (multiplyOut k factors).Leads self t e t' ↔ e = .product k (Expr.ordered factors) ∧
    t' = (if k = 1 then t else t.record (.const k) false).record (.product k (Expr.ordered factors)) false := by
  unfold multiplyOut
  by_cases one : k = 1
  · simp [one]
  · simp [one]

end Plan

/-! ### Sums and products -/

/-- A term is split into a constant factor and the rest. -/
inductive Splits (self : Callee) : Expr → Table → Int64 × Expr → Table → Prop where
  | whole {e : Expr} {t : Table} (plain : ∀ k factors, e = .product k factors → k = 1) : Splits self e t (1, e) t
  | product {k : Int64} {factors : List Expr} {base : Expr} {t t' : Table} (other : k ≠ 1)
      (isBase : self .product factors t = some (base, t')) : Splits self (.product k factors) t (k, base) t'

/-- A term is multiplied by its constant factor. -/
inductive Scales (self : Callee) : Int64 × Expr → Table → List Expr → Table → Prop where
  | zero {e : Expr} {t : Table} : Scales self (0, e) t [] t
  | one {e : Expr} {t : Table} : Scales self (1, e) t [e] t
  | times {k : Int64} {e e' : Expr} {t t' : Table} (nonzero : k ≠ 0) (other : k ≠ 1)
      (isProduct : self .product [.const k, e] (t.record (.const k) false) = some (e', t')) :
      Scales self (k, e) t [e'] t'

/-- Like terms are combined. -/
inductive Combines (self : Callee) (terms : List Expr) : Table → List Expr → Table → Prop where
  | intro {parts : List (Int64 × Expr)} {lists : List (List Expr)} {t t₁ t₂ : Table}
      (split : Chain (Splits self) terms t parts t₁) (scale : Chain (Scales self) (mergeLike parts) t₁ lists t₂) :
      Combines self terms t lists.flatten t₂

/-- A constant and opened terms are added up. -/
inductive Sums (self : Callee) (F : Forest) (k : Int64) (terms : List Expr) : Table → Expr → Table → Prop where
  /-- There are no recurrences. -/
  | plain {e : Expr} {t t' : Table} (none : leader F terms = none) (isSum : (finishSum k terms).Leads self t e t') :
      Sums self F k terms t e t'
  /-- The recurrence takes all else into its start. -/
  | gathered {l : LoopId} {start step e : Expr} {t t₁ t₂ t' : Table} (leading : leader F terms = some l)
      (steady : (termsBeside l terms).all (Expr.isInvariant F l) = true)
      (isStart : self .sum (startsOver l terms ++ termsBeside l terms ++ [.const k]) (t.record (.const k) false) =
        some (start, t₁))
      (isStep : self .sum (stepsOver l terms) t₁ = some (step, t₂))
      (isSum : (recurrence l start step (noneWraps l terms)).Leads self t₂ e t') : Sums self F k terms t e t'
  /-- Something varies beside the recurrence. -/
  | merged {l : LoopId} {start step merged e : Expr} {t t₁ t₂ t₃ t' : Table} (leading : leader F terms = some l)
      (varies : (termsBeside l terms).all (Expr.isInvariant F l) = false)
      (isStart : self .sum (startsOver l terms) t = some (start, t₁))
      (isStep : self .sum (stepsOver l terms) t₁ = some (step, t₂))
      (isMerged : (recurrence l start step (noneWraps l terms)).Leads self t₂ merged t₃)
      (isSum : (addMerged k (termsBeside l terms) merged).Leads self t₃ e t') : Sums self F k terms t e t'

/-- A constant is distributed. -/
inductive Distributes (self : Callee) (k : Int64) : Expr → Table → Expr → Table → Prop where
  | recur {l : LoopId} {s x start step e : Expr} {t t₁ t₂ t' : Table}
      (isStart : self .product [.const k, s] (t.record (.const k) false) = some (start, t₁))
      (isStep : self .product [.const k, x] t₁ = some (step, t₂))
      (isProduct : (recurrence l start step fun table => table.noWrap (.recur l s x)).Leads self t₂ e t') :
      Distributes self k (.recur l s x) t e t'
  | sum {n : Int64} {terms out : List Expr} {e : Expr} {t t₁ t' : Table}
      (isOut : Chain (fun x t e t' => self .product [.const k, x] t = some (e, t')) (Expr.withConstant 0 n terms)
        (t.record (.const k) false) out t₁)
      (isSum : self .sum out t₁ = some (e, t')) : Distributes self k (.sum n terms) t e t'
  | other {e e' : Expr} {t t' : Table} (noRecur : ∀ l s x, e ≠ .recur l s x) (noSum : ∀ n terms, e ≠ .sum n terms)
      (isProduct : (multiplyOut k [e]).Leads self (t.record (.const k) false) e' t') : Distributes self k e t e' t'

/-- A constant and opened factors are multiplied. -/
inductive Multiplies (self : Callee) (k : Int64) : List Expr → Table → Expr → Table → Prop where
  | zero {factors : List Expr} {t : Table} (zero : k = 0) :
      Multiplies self k factors t (.const 0) (t.record (.const 0) false)
  | const {t : Table} (nonzero : k ≠ 0) : Multiplies self k [] t (.const k) (t.record (.const k) false)
  | same {e : Expr} {t : Table} (one : k = 1) : Multiplies self k [e] t e t
  | single {e e' : Expr} {t t' : Table} (nonzero : k ≠ 0) (other : k ≠ 1) (isProduct : Distributes self k e t e' t') :
      Multiplies self k [e] t e' t'
  | several {x y e : Expr} {more : List Expr} {t t' : Table} (nonzero : k ≠ 0)
      (isProduct : (multiplyOut k (x :: y :: more)).Leads self t e t') : Multiplies self k (x :: y :: more) t e t'

namespace Plan

variable {F : Forest} {k : Int64} {ops terms factors : List Expr}

theorem leads_splitCoeff {p : Int64 × Expr} : (splitCoeff e).Leads self t p t' ↔ Splits self e t p t' := by
  have whole : (∀ k factors, e = .product k factors → k = 1) → splitCoeff e = pure (1, e) →
      ((splitCoeff e).Leads self t p t' ↔ Splits self e t p t') := by
    intro plain same
    rw [same, leads_pure]
    constructor
    · rintro ⟨rfl, rfl⟩
      exact .whole plain
    · intro splits
      cases splits with
      | whole _ => exact ⟨rfl, rfl⟩
      | product other _ => exact absurd (plain _ _ rfl) other
  cases e with
  | product k factors =>
    by_cases one : k = 1
    · refine whole (fun k' factors' same => ?_) (if_pos one)
      cases same
      exact one
    · rw [splitCoeff, if_neg one]
      simp only [leads_bind, leads_request, leads_pure]
      constructor
      · rintro ⟨base, t₁, isBase, rfl, rfl⟩
        exact .product one isBase
      · intro splits
        cases splits with
        | whole plain => exact absurd (plain _ _ rfl) one
        | product _ isBase => exact ⟨_, _, isBase, rfl, rfl⟩
  | _ => exact whole (by simp) rfl

theorem leads_scaled {p : Int64 × Expr} {out : List Expr} : (scaled p).Leads self t out t' ↔ Scales self p t out t' := by
  obtain ⟨k, e⟩ := p
  unfold scaled
  by_cases zero : k = 0
  · subst zero
    rw [if_pos rfl, leads_pure]
    constructor
    · rintro ⟨rfl, rfl⟩
      exact .zero
    · intro scales
      cases scales with
      | zero => exact ⟨rfl, rfl⟩
      | times nonzero _ _ => exact absurd rfl nonzero
  · by_cases one : k = 1
    · subst one
      rw [if_neg zero, if_pos rfl, leads_pure]
      constructor
      · rintro ⟨rfl, rfl⟩
        exact .one
      · intro scales
        cases scales with
        | one => exact ⟨rfl, rfl⟩
        | times _ other _ => exact absurd rfl other
    · rw [if_neg zero, if_neg one]
      rw [leads_constant_bind]
      simp only [leads_bind, leads_request, leads_pure]
      constructor
      · rintro ⟨e', _, isProduct, rfl, rfl⟩
        exact .times zero one isProduct
      · intro scales
        cases scales with
        | zero => exact absurd rfl zero
        | one => exact absurd rfl one
        | times _ _ isProduct => exact ⟨_, _, isProduct, rfl, rfl⟩

theorem leads_combineLike {out : List Expr} :
    (combineLike terms).Leads self t out t' ↔ Combines self terms t out t' := by
  simp only [combineLike, leads_bind, leads_mapM fun _ _ _ _ => leads_splitCoeff,
    leads_mapM fun _ _ _ _ => leads_scaled, leads_pure]
  constructor
  · rintro ⟨parts, t₁, split, lists, t₂, scale, rfl, rfl⟩
    exact .intro split scale
  · rintro ⟨split, scale⟩
    exact ⟨_, _, split, _, _, scale, rfl, rfl⟩

theorem leads_finishSum : (finishSum k terms).Leads self t e t' ↔
    ∃ out t₁, Combines self terms t out t₁ ∧
      (addUp (andConstant k out)).Leads self (if k = 0 then t₁ else t₁.record (.const k) false) e t' := by
  simp only [finishSum, leads_bind, leads_combineLike, leads_addConstant, and_assoc, exists_and_left, exists_eq_left]

theorem leads_addMerged {rest : List Expr} {merged : Expr} :
    (addMerged k rest merged).Leads self t e t' ↔
      (merged.loop?.isSome = true ∧ (finishSum k (rest ++ [merged])).Leads self t e t') ∨
        (merged.loop? = none ∧ self .sum (rest ++ [merged, .const k]) (t.record (.const k) false) = some (e, t')) := by
  cases merged <;> simp [addMerged, Expr.loop?, and_assoc]

theorem leads_sumPlan : (sumPlan F ops).Leads self t e t' ↔
    Sums self F (Expr.summandsOf ops).1 (Expr.summandsOf ops).2 t e t' := by
  unfold sumPlan
  generalize Expr.summandsOf ops = opened
  obtain ⟨k, terms⟩ := opened
  dsimp only
  cases leading : leader F terms with
  | none =>
    constructor
    · exact .plain leading
    · intro sums
      cases sums with
      | plain _ isSum => exact isSum
      | gathered found _ _ _ _ => cases leading.symm.trans found
      | merged found _ _ _ _ _ => cases leading.symm.trans found
  | some l =>
    dsimp only
    by_cases steady : (termsBeside l terms).all (Expr.isInvariant F l) = true
    · rw [if_pos steady, leads_constant_bind]
      simp only [leads_bind, leads_request]
      constructor
      · rintro ⟨start, t₁, isStart, step, t₂, isStep, isSum⟩
        exact .gathered leading steady isStart isStep isSum
      · intro sums
        cases sums with
        | plain none _ => cases leading.symm.trans none
        | gathered found _ isStart isStep isSum =>
          obtain rfl := Option.some.inj (leading.symm.trans found)
          exact ⟨_, _, isStart, _, _, isStep, isSum⟩
        | merged found varies _ _ _ _ =>
          obtain rfl := Option.some.inj (leading.symm.trans found)
          cases steady.symm.trans varies
    · rw [if_neg steady]
      simp only [leads_bind, leads_request]
      constructor
      · rintro ⟨start, t₁, isStart, step, t₂, isStep, merged, t₃, isMerged, isSum⟩
        exact .merged leading (by simpa using steady) isStart isStep isMerged isSum
      · intro sums
        cases sums with
        | plain none _ => cases leading.symm.trans none
        | gathered found held _ _ _ =>
          obtain rfl := Option.some.inj (leading.symm.trans found)
          exact absurd held steady
        | merged found _ isStart isStep isMerged isSum =>
          obtain rfl := Option.some.inj (leading.symm.trans found)
          exact ⟨_, _, isStart, _, _, isStep, _, _, isMerged, isSum⟩

theorem leads_distribute {factor : Expr} : (distribute k factor).Leads self t e t' ↔ Distributes self k factor t e t' := by
  have each : ∀ {xs out : List Expr} {t t' : Table}, (xs.mapM fun x => request .product [.const k, x]).Leads self t out t' ↔
      Chain (fun x t e t' => self .product [.const k, x] t = some (e, t')) xs t out t' :=
    leads_mapM fun _ _ _ _ => leads_request
  have other : (∀ l s x, factor ≠ .recur l s x) → (∀ n terms, factor ≠ .sum n terms) →
      ((multiplyOut k [factor]).Leads self (t.record (.const k) false) e t' ↔ Distributes self k factor t e t') := by
    intro noRecur noSum
    constructor
    · exact .other noRecur noSum
    · intro distributes
      cases distributes with
      | recur _ _ _ => exact absurd rfl (noRecur _ _ _)
      | sum _ _ => exact absurd rfl (noSum _ _)
      | other _ _ isProduct => exact isProduct
  rw [distribute, leads_constant_bind]
  cases factor with
  | recur l s x =>
    simp only [leads_bind, leads_request]
    constructor
    · rintro ⟨start, t₁, isStart, step, t₂, isStep, isProduct⟩
      exact .recur isStart isStep isProduct
    · intro distributes
      cases distributes with
      | recur isStart isStep isProduct => exact ⟨_, _, isStart, _, _, isStep, isProduct⟩
      | other noRecur _ _ => exact absurd rfl (noRecur l s x)
  | sum n terms =>
    simp only [leads_bind, leads_request, each]
    constructor
    · rintro ⟨out, t₁, isOut, isSum⟩
      exact .sum isOut isSum
    · intro distributes
      cases distributes with
      | sum isOut isSum => exact ⟨_, _, isOut, isSum⟩
      | other _ noSum _ => exact absurd rfl (noSum n terms)
  | _ => exact other (by simp) (by simp)

theorem leads_productPlan : (productPlan ops).Leads self t e t' ↔
    Multiplies self (Expr.factorsOf ops).1 (Expr.factorsOf ops).2 t e t' := by
  unfold productPlan
  generalize Expr.factorsOf ops = opened
  obtain ⟨k, factors⟩ := opened
  dsimp only
  constructor
  · intro leads
    by_cases zero : k = 0
    · rw [if_pos zero] at leads
      obtain ⟨rfl, rfl⟩ := leads_constant.mp leads
      exact .zero zero
    · rw [if_neg zero] at leads
      match factors, leads with
      | [], leads =>
        obtain ⟨rfl, rfl⟩ := leads_constant.mp leads
        exact .const zero
      | [factor], leads =>
        dsimp only at leads
        by_cases one : k = 1
        · rw [if_pos one] at leads
          obtain ⟨rfl, rfl⟩ := leads_pure.mp leads
          exact .same one
        · rw [if_neg one] at leads
          exact .single zero one (leads_distribute.mp leads)
      | x :: y :: more, leads => exact .several zero leads
  · intro multiplies
    cases multiplies with
    | zero zero => simp [zero]
    | const nonzero => simp [nonzero]
    | same one => simp [one]
    | single nonzero other isProduct => simpa [nonzero, other] using leads_distribute.mpr isProduct
    | several nonzero isProduct => simpa [nonzero] using isProduct

end Plan

/-! ### Calls -/

/-- What is put together from expressions as required is as promised. -/
def Fulfils (requires : List Expr → Prop) (promises : Combination → List Expr → Expr → Prop) (self : Callee) : Prop :=
  ∀ ⦃op ops t e t'⦄, self op ops t = some (e, t') → requires ops → promises op ops e

/-- It suffices that each call keeps the promise if all calls that it makes do. -/
theorem fulfils_canonical {F : Forest} {requires : List Expr → Prop} {promises : Combination → List Expr → Expr → Prop}
    (step : ∀ self, Fulfils requires promises self → Fulfils requires promises fun op ops => (op.plan F ops).run self)
    (depth : Nat) : Fulfils requires promises (canonical F depth) := by
  induction depth with
  | zero =>
    intro op ops t e t' made
    cases made
  | succ depth ih => exact step _ ih

theorem fulfils_together {F : Forest} {requires : List Expr → Prop} {promises : Combination → List Expr → Expr → Prop}
    (each : ∀ depth, Fulfils requires promises (canonical F depth)) : Fulfils requires promises (together F) :=
  fun _ ops _ _ _ made => each (enough ops) made

end LoopConflict.Evolution
