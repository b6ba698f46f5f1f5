import LoopConflict.Proofs.Evolution.Depth
import LoopConflict.Proofs.Evolution.Order

/-!
Kinds of expressions that sums and products stay in. If each way to make an expression of others of a kind gives one of
the kind again (`Kind`), then so does every sum and every product (`Kind.canonical`). This holds of expressions whose
recurrences all satisfy a condition, if merging recurrences keeps it (`kind_eachRecurrence`); the condition may be about
what does not change while the loop of a recurrence runs, because sums and products change only where an operand does
(`keepsSteady_canonical`).
-/
namespace LoopConflict.Evolution

open Loop (Forest LoopId)
open Program (Value)

variable {F : Forest} {G : Expr → Prop}

/-! ### Invariance -/

namespace Expr

mutual

/-- An expression is invariant in a loop if it is made of loops that are not inside and of values that are not
    computed there. -/
theorem isInvariant_iff_over (F : Forest) (l : LoopId) : ∀ e : Expr, e.isInvariant F l = true ↔
    e.Over (fun m => F.containsLoop l m = false) fun v => F.defines l v = false
  | .const _ => by simp [isInvariant, Over]
  | .unknown _ v => by simp [isInvariant, Over]
  | .recur m s t => by simp [isInvariant, Over, isInvariant_iff_over F l s, isInvariant_iff_over F l t, and_assoc]
  | .sum _ ts => by simpa [isInvariant, Over] using areInvariant_iff_allOver F l ts
  | .product _ ts => by simpa [isInvariant, Over] using areInvariant_iff_allOver F l ts

theorem areInvariant_iff_allOver (F : Forest) (l : LoopId) : ∀ es : List Expr, areInvariant F l es = true ↔
    AllOver (fun m => F.containsLoop l m = false) (fun v => F.defines l v = false) es
  | [] => by simp [areInvariant, AllOver]
  | e :: es => by simp [areInvariant, AllOver, isInvariant_iff_over F l e, areInvariant_iff_allOver F l es]

end

end Expr

/-- What is put together does not change in a loop if no operand does. -/
abbrev KeepsSteady (F : Forest) (self : Callee) : Prop :=
  ∀ l, Fulfils (fun ops => ∀ p ∈ ops, p.isInvariant F l = true) (fun _ _ e => e.isInvariant F l = true) self

theorem keepsSteady_canonical (F : Forest) (depth : Nat) : KeepsSteady F (canonical F depth) := by
  intro l op ops t e t' made steady
  have uses := Expr.allOver_iff.mpr fun p member => (Expr.isInvariant_iff_over F l p).mp (steady p member)
  have means := keepsMeaning_canonical (a := ⟨fun _ => 0, fun _ => 0⟩) F depth made uses
  exact (Expr.isInvariant_iff_over F l e).mpr means.uses

/-! ### Kinds -/

/-- What is made of expressions of the kind is of it again. The parts of a new recurrence are invariant in its loop if
    those of all recurrences of the kind are. -/
structure Kind (F : Forest) (G : Expr → Prop) : Prop where
  const (n : Int64) : G (.const n)
  operand {e p : Expr} : G e → p ∈ e.operands → G p
  recur {l : LoopId} {s t start step : Expr} : G (.recur l s t) → G start → G step → step.isZero = false →
    ((∀ s t, G (.recur l s t) → s.isInvariant F l = true ∧ t.isInvariant F l = true) →
      start.isInvariant F l = true ∧ step.isInvariant F l = true) → G (.recur l start step)
  sumOf {es : List Expr} : (∀ e ∈ es, G e) → G (Expr.sumOf es)
  product {k : Int64} {es : List Expr} : (∀ e ∈ es, G e ∧ ∀ n, e ≠ .const n) → G (.product k (Expr.ordered es))

namespace Kind

variable (kind : Kind F G) {self : Callee} {k : Int64} {ops terms factors : List Expr} {l : LoopId}
  {e e' p s x start step : Expr} {t t' : Table}
include kind

theorem part (good : G e) (isPart : p.Part e) : G p := by
  induction isPart with
  | self => exact good
  | inside member _ ih => exact ih (kind.operand good member)

theorem summandsOf (each : ∀ e ∈ ops, G e) : ∀ p ∈ (Expr.summandsOf ops).2, G p := by
  intro p member
  obtain ⟨e, inside, isPart, _⟩ := Expr.part_of_mem_summandsOf member
  exact kind.part (each e inside) isPart

theorem factorsOf (each : ∀ e ∈ ops, G e) : ∀ p ∈ (Expr.factorsOf ops).2, G p ∧ ∀ n, p ≠ .const n := by
  intro p member
  obtain ⟨e, inside, isPart, noConst⟩ := Expr.part_of_mem_factorsOf member
  exact ⟨kind.part (each e inside) isPart, noConst⟩

theorem starts (each : ∀ e ∈ terms, G e) : ∀ e ∈ startsOver l terms, G e :=
  forall_mem_startsOver fun _ _ here => kind.operand (each _ here) (by simp [Expr.operands])

theorem steps (each : ∀ e ∈ terms, G e) : ∀ e ∈ stepsOver l terms, G e :=
  forall_mem_stepsOver fun _ _ here => kind.operand (each _ here) (by simp [Expr.operands])

/-- The start of what leads takes in the terms beside it and the constant. -/
theorem origins (k : Int64) (each : ∀ e ∈ terms, G e) :
    ∀ e ∈ startsOver l terms ++ termsBeside l terms ++ [.const k], G e :=
  forall_mem_gathered (kind.starts each) (forall_mem_termsBeside each) (kind.const k)

theorem scale (k : Int64) (good : G e) : ∀ p ∈ [.const k, e], G p := by
  simpa using ⟨kind.const k, good⟩

theorem recurred (isRecur : G (.recur l s x)) (isStart : G start) (isStep : G step)
    (steady : (∀ s x, G (.recur l s x) → s.isInvariant F l = true ∧ x.isInvariant F l = true) →
      start.isInvariant F l = true ∧ step.isInvariant F l = true) : G (recurred l start step) := by
  unfold Evolution.recurred
  split
  · exact isStart
  · rename_i notZero
    exact kind.recur isRecur isStart isStep (by simpa using notZero) steady

theorem addedUp (each : ∀ e ∈ terms, G e) : G (addedUp (andConstant k terms)) := by
  have all : ∀ e ∈ andConstant k terms, G e := by
    unfold andConstant
    split
    · exact each
    · simpa [or_imp, forall_and] using ⟨each, kind.const k⟩
  match andConstant k terms, all with
  | [], _ => exact kind.const 0
  | [e], all => exact all e (by simp)
  | e :: e' :: more, all => exact kind.sumOf all

section

variable (keeps : Fulfils (fun ops => ∀ p ∈ ops, G p) (fun _ _ => G) self)
include keeps

theorem of_splits {part : Int64 × Expr} (splits : Splits self e t part t') (good : G e) : G part.2 := by
  cases splits with
  | whole _ => exact good
  | product _ isBase => exact keeps isBase fun p member => kind.operand good (Expr.mem_withConstant member)

theorem of_scales {part : Int64 × Expr} {out : List Expr} (scales : Scales self part t out t') (good : G part.2) :
    ∀ e ∈ out, G e := by
  cases scales with
  | zero => simp
  | one => simpa using good
  | times _ _ isProduct => simpa using keeps isProduct (kind.scale _ good)

theorem of_combines {out : List Expr} (combines : Combines self terms t out t') (each : ∀ e ∈ terms, G e) :
    ∀ e ∈ out, G e := by
  obtain ⟨split, scale⟩ := combines
  have bases := split.forall_mem fun e member _ _ _ splits => kind.of_splits keeps splits (each e member)
  have lists := scale.forall_mem fun part member _ _ _ scales =>
    kind.of_scales keeps scales (forall_mem_mergeLike bases part member)
  intro e member
  obtain ⟨es, inLists, inside⟩ := List.mem_flatten.mp member
  exact lists es inLists e inside

theorem of_finishSum (leads : (finishSum k terms).Leads self t e t') (each : ∀ e ∈ terms, G e) : G e := by
  obtain ⟨out, t₁, combines, isSum⟩ := Plan.leads_finishSum.mp leads
  rw [(Plan.leads_addUp.mp isSum).1]
  exact kind.addedUp (kind.of_combines keeps combines each)

theorem of_addMerged (leads : (addMerged k terms p).Leads self t e t') (each : ∀ e ∈ terms, G e) (good : G p) : G e := by
  rcases Plan.leads_addMerged.mp leads with ⟨_, isSum⟩ | ⟨_, isSum⟩
  · exact kind.of_finishSum keeps isSum (by simpa [or_imp, forall_and] using ⟨each, good⟩)
  · exact keeps isSum (by simpa [or_imp, forall_and] using ⟨each, good, kind.const k⟩)

variable (steady : KeepsSteady F self)
include steady

theorem of_sums (sums : Sums self F k terms t e t') (each : ∀ e ∈ terms, G e) : G e := by
  cases sums with
  | plain _ isSum => exact kind.of_finishSum keeps isSum each
  | @gathered l start step _ _ _ _ _ leading invariant isStart isStep isSum =>
    obtain ⟨s, x, member⟩ := leader_mem leading
    rw [(Plan.leads_recurrence.mp isSum).1]
    refine kind.recurred (each _ member) (keeps isStart (kind.origins k each)) (keeps isStep (kind.steps each)) ?_
    intro all
    have starts := forall_mem_startsOver fun s x here => (all s x (each _ here)).1
    have steps := forall_mem_stepsOver fun s x here => (all s x (each _ here)).2
    exact ⟨steady l isStart (forall_mem_gathered starts (List.all_eq_true.mp invariant) rfl), steady l isStep steps⟩
  | @merged l start step _ _ _ _ _ _ _ leading _ isStart isStep isMerged isSum =>
    obtain ⟨s, x, member⟩ := leader_mem leading
    obtain rfl := (Plan.leads_recurrence.mp isMerged).1
    refine kind.of_addMerged keeps isSum (forall_mem_termsBeside each) ?_
    refine kind.recurred (each _ member) (keeps isStart (kind.starts each)) (keeps isStep (kind.steps each)) ?_
    intro all
    have starts := forall_mem_startsOver fun s x here => (all s x (each _ here)).1
    have steps := forall_mem_stepsOver fun s x here => (all s x (each _ here)).2
    exact ⟨steady l isStart starts, steady l isStep steps⟩

theorem of_distributes (distributes : Distributes self k e t e' t') (good : G e) (noConst : ∀ n, e ≠ .const n) : G e' := by
  cases distributes with
  | recur isStart isStep isProduct =>
    have isLeft := kind.scale k (kind.operand good List.mem_cons_self)
    have isRight := kind.scale k (kind.operand good (List.mem_cons_of_mem _ List.mem_cons_self))
    rw [(Plan.leads_recurrence.mp isProduct).1]
    refine kind.recurred good (keeps isStart isLeft) (keeps isStep isRight) fun all => ?_
    obtain ⟨invariantStart, invariantStep⟩ := all _ _ good
    exact ⟨steady _ isStart (by simp [Expr.isInvariant, invariantStart]),
      steady _ isStep (by simp [Expr.isInvariant, invariantStep])⟩
  | sum isOut isSum =>
    refine keeps isSum (isOut.forall_mem fun x member _ _ _ isProduct => ?_)
    exact keeps isProduct (kind.scale k (kind.operand good member))
  | other _ _ isProduct =>
    rw [(Plan.leads_multiplyOut.mp isProduct).1]
    exact kind.product (by simpa using ⟨good, noConst⟩)

theorem of_multiplies (multiplies : Multiplies self k factors t e t') (each : ∀ e ∈ factors, G e ∧ ∀ n, e ≠ .const n) :
    G e := by
  cases multiplies with
  | zero _ => exact kind.const 0
  | const _ => exact kind.const k
  | same _ => exact (each e (by simp)).1
  | single _ _ isProduct =>
    obtain ⟨good, noConst⟩ := each _ (List.mem_singleton_self _)
    exact kind.of_distributes keeps steady isProduct good noConst
  | several _ isProduct =>
    rw [(Plan.leads_multiplyOut.mp isProduct).1]
    exact kind.product each

end

/-- What is put together from expressions of the kind is of it. -/
theorem canonical (depth : Nat) : Fulfils (fun ops => ∀ p ∈ ops, G p) (fun _ _ => G) (canonical F depth) := by
  induction depth with
  | zero =>
    intro op ops t e t' made
    cases made
  | succ depth ih =>
    have steady := keepsSteady_canonical F depth
    intro op ops t e t' leads each
    cases op with
    | sum => exact kind.of_sums ih steady (Plan.leads_sumPlan.mp leads) (kind.summandsOf each)
    | product => exact kind.of_multiplies ih steady (Plan.leads_productPlan.mp leads) (kind.factorsOf each)

end Kind

/-! ### Conditions on recurrences -/

namespace Expr

variable {R : LoopId → Expr → Expr → Prop} {e p : Expr}

/-- All recurrences in the expression satisfy the condition. -/
def EachRecurrence (R : LoopId → Expr → Expr → Prop) (e : Expr) : Prop :=
  ∀ l s t, (recur l s t).Part e → R l s t

theorem EachRecurrence.part (each : e.EachRecurrence R) (isPart : p.Part e) : p.EachRecurrence R :=
  fun l s t inside => each l s t (inside.trans isPart)

theorem EachRecurrence.operand (each : e.EachRecurrence R) (isPart : p ∈ e.operands) : p.EachRecurrence R :=
  each.part (.inside isPart .self)

/-- Other expressions than recurrences only have the recurrences of their terms. -/
theorem eachRecurrence_of_operands (other : ∀ l s t, e ≠ recur l s t) (each : ∀ p ∈ e.operands, p.EachRecurrence R) :
    e.EachRecurrence R := by
  intro l s t isPart
  cases isPart with
  | self => exact absurd rfl (other l s t)
  | inside member isPart => exact each _ member l s t isPart

theorem eachRecurrence_const (n : Int64) : (const n).EachRecurrence R :=
  eachRecurrence_of_operands (by simp) (by simp [operands])

theorem eachRecurrence_unknown (number : Nat) (v : Value) : (unknown number v).EachRecurrence R :=
  eachRecurrence_of_operands (by simp) (by simp [operands])

theorem eachRecurrence_product (k : Int64) {ts : List Expr} (each : ∀ e ∈ ts, e.EachRecurrence R) :
    (product k ts).EachRecurrence R := by
  refine eachRecurrence_of_operands (by simp) fun p member => ?_
  rcases eq_or_mem_of_mem_withConstant member with ⟨rfl, _⟩ | inside
  · exact eachRecurrence_const k
  · exact each p inside

theorem eachRecurrence_sumOf {terms : List Expr} (each : ∀ e ∈ terms, e.EachRecurrence R) :
    (sumOf terms).EachRecurrence R := by
  refine eachRecurrence_of_operands ?_ fun p member => ?_
  · unfold sumOf
    split
    · split <;> simp
    · simp
  · rw [operands_sumOf] at member
    exact each p ((ordered_perm terms).mem_iff.mp member)

theorem eachRecurrence_recur {l : LoopId} {s t : Expr} (start : s.EachRecurrence R) (step : t.EachRecurrence R)
    (here : R l s t) : (recur l s t).EachRecurrence R := by
  intro l' s' t' isPart
  cases isPart with
  | self => exact here
  | inside member isPart =>
    simp only [operands, List.mem_cons, List.not_mem_nil, or_false] at member
    rcases member with rfl | rfl
    · exact start l' s' t' isPart
    · exact step l' s' t' isPart

end Expr

/-- Sums and products keep a condition on recurrences if merging recurrences does. -/
theorem kind_eachRecurrence {R : LoopId → Expr → Expr → Prop}
    (merges : ∀ {l s t start step}, R l s t → step.isZero = false →
      ((∀ s t, R l s t → s.isInvariant F l = true ∧ t.isInvariant F l = true) →
        start.isInvariant F l = true ∧ step.isInvariant F l = true) → R l start step) :
    Kind F (Expr.EachRecurrence R) where
  const := Expr.eachRecurrence_const
  operand := Expr.EachRecurrence.operand
  recur isRecur isStart isStep notZero steady := by
    refine Expr.eachRecurrence_recur isStart isStep (merges (isRecur _ _ _ .self) notZero fun all => ?_)
    exact steady fun s t isRecur => all s t (isRecur _ _ _ .self)
  sumOf := Expr.eachRecurrence_sumOf
  product each := Expr.eachRecurrence_product _ fun e member => (each e ((Expr.ordered_perm _).mem_iff.mp member)).1

end LoopConflict.Evolution
