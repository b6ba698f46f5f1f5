import LoopConflict.Proofs.Evolution.Kinds
import LoopConflict.Proofs.Evolution.Nests
import LoopConflict.Proofs.Evolution.Uniquing
import LoopConflict.Proofs.Loop.Numbering

/-!
The order of operands. Terms are put in order and like terms add up in any order (`mergeLike_perm`), so it matters only
which loop leads a sum. That is the deepest one, and of several the first. So where no two loops have the same depth,
a sum is the same in whatever order its operands come (`canonical_sum_perm`), and nowhere else: with two such
loops, as in `siblings`, each order gives a sum of its own (`orderFree_iff_ranked`). A product has no leader, and its
operands may always stand in any order (`canonical_product_perm`).
-/
namespace LoopConflict.Evolution

open Loop (Forest LoopId)
open Program (Function Value)

/-! ### Opened sums and products -/

namespace Expr

variable {es es' : List Expr}

theorem summandsOf_perm (perm : es.Perm es') :
    (summandsOf es).1 = (summandsOf es').1 ∧ (summandsOf es).2.Perm (summandsOf es').2 := by
  induction perm with
  | nil => exact ⟨rfl, .nil⟩
  | cons e _ ih =>
    simp only [summandsOf]
    exact ⟨by rw [ih.1], ih.2.append_left _⟩
  | swap e e' es =>
    simp only [summandsOf]
    exact ⟨by grind, List.perm_append_comm_assoc ..⟩
  | trans _ _ first second => exact ⟨first.1.trans second.1, first.2.trans second.2⟩

theorem factorsOf_perm (perm : es.Perm es') :
    (factorsOf es).1 = (factorsOf es').1 ∧ (factorsOf es).2.Perm (factorsOf es').2 := by
  induction perm with
  | nil => exact ⟨rfl, .nil⟩
  | cons e _ ih =>
    simp only [factorsOf]
    exact ⟨by rw [ih.1], ih.2.append_left _⟩
  | swap e e' es =>
    simp only [factorsOf]
    exact ⟨by grind, List.perm_append_comm_assoc ..⟩
  | trans _ _ first second => exact ⟨first.1.trans second.1, first.2.trans second.2⟩

theorem sizes_perm (perm : es.Perm es') : sizes es = sizes es' := by
  induction perm with
  | nil => rfl
  | cons e _ ih => rw [sizes, sizes, ih]
  | swap e e' es =>
    simp only [sizes]
    omega
  | trans _ _ first second => exact first.trans second

theorem ordered_perm_eq {numbers : List Value} (formed : ∀ e ∈ es, e.Formed numbers) (perm : es.Perm es') :
    ordered es = ordered es' :=
  (ordered_eq_of_perm (strict_ordered formed) (perm.symm.trans (ordered_perm es).symm)).symm

end Expr

/-! ### The leading loop -/

/-- Loops of one depth are the same. -/
def Ranked (F : Forest) (L : LoopId → Prop) : Prop :=
  ∀ l m, L l → L m → F.depth l = F.depth m → l = m

/-- The deepest loop leads, wherever its recurrences stand. -/
theorem leader_perm {F : Forest} {L : LoopId → Prop} (ranked : Ranked F L) {terms terms' : List Expr}
    (loops : ∀ l s t, .recur l s t ∈ terms → L l) (perm : terms.Perm terms') : leader F terms = leader F terms' := by
  cases leading : leader F terms with
  | none =>
    cases leading' : leader F terms' with
    | none => rfl
    | some m =>
      obtain ⟨s, t, member⟩ := leader_mem leading'
      obtain ⟨l, found, _⟩ := exists_leader_deepest (F := F) (perm.mem_iff.mpr member)
      cases leading.symm.trans found
  | some l =>
    obtain ⟨s, t, member⟩ := leader_mem leading
    obtain ⟨m, found, deepest⟩ := exists_leader_deepest (F := F) (perm.mem_iff.mp member)
    obtain ⟨s', t', member'⟩ := leader_mem found
    obtain ⟨l', found', deepest'⟩ := exists_leader_deepest (F := F) member
    obtain rfl := Option.some.inj (leading.symm.trans found')
    have above := deepest l s t (perm.mem_iff.mp member)
    have below := deepest' m s' t' (perm.mem_iff.mpr member')
    rw [found, ranked l m (loops l s t member) (loops m s' t' (perm.mem_iff.mpr member')) (Nat.le_antisymm above below)]

/-! ### Like terms -/

/-- The factor that a term stands with. -/
def factorOf (base : Expr) : List (Int64 × Expr) → Option Int64
  | [] => none
  | (c, b) :: rest => if b = base then some c else factorOf base rest

/-- What one more term does to a factor. -/
def addFactor (base : Expr) (factor : Option Int64) (t : Int64 × Expr) : Option Int64 :=
  if t.2 = base then some (factor.getD 0 + t.1) else factor

section

variable {terms terms' : List (Int64 × Expr)}

theorem factorOf_addLike (base : Expr) (t : Int64 × Expr) (terms : List (Int64 × Expr)) :
    factorOf base (addLike t.1 t.2 terms) = addFactor base (factorOf base terms) t := by
  induction terms with
  | nil =>
    by_cases same : t.2 = base <;> simp [addLike, factorOf, addFactor, same]
  | cons first rest ih =>
    obtain ⟨c, b⟩ := first
    rw [addLike]
    by_cases here : b = t.2
    · by_cases same : t.2 = base <;> simp [here, factorOf, addFactor, same]
    · by_cases there : b = base
      · have other : t.2 ≠ base := fun same => here (there.trans same.symm)
        simp [if_neg here, factorOf, addFactor, if_pos there, other]
      · simp [here, factorOf, there, ih]

theorem factorOf_foldl (base : Expr) (terms merged : List (Int64 × Expr)) :
    factorOf base (terms.foldl (fun acc t => addLike t.1 t.2 acc) merged) =
      terms.foldl (addFactor base) (factorOf base merged) := by
  induction terms generalizing merged with
  | nil => rfl
  | cons t rest ih => rw [List.foldl_cons, List.foldl_cons, ih, factorOf_addLike]

theorem addFactor_right_comm (base : Expr) (factor : Option Int64) (t t' : Int64 × Expr) :
    addFactor base (addFactor base factor t) t' = addFactor base (addFactor base factor t') t := by
  by_cases first : t.2 = base
  · by_cases second : t'.2 = base
    · simp only [addFactor, first, second, if_true, Option.getD_some]
      rw [Int64.add_assoc, Int64.add_comm t.1, ← Int64.add_assoc]
    · simp [addFactor, first, second]
  · simp [addFactor, first]

theorem factorOf_mergeLike_perm (perm : terms.Perm terms') (base : Expr) :
    factorOf base (mergeLike terms) = factorOf base (mergeLike terms') := by
  have commutes : RightCommutative (addFactor base) := ⟨addFactor_right_comm base⟩
  rw [mergeLike, mergeLike, factorOf_foldl, factorOf_foldl]
  exact perm.foldl_eq _

theorem bases_addLike (coeff : Int64) (base : Expr) (terms : List (Int64 × Expr)) :
    (addLike coeff base terms).map (·.2) =
      if base ∈ terms.map (·.2) then terms.map (·.2) else terms.map (·.2) ++ [base] := by
  induction terms with
  | nil => rfl
  | cons first rest ih =>
    obtain ⟨c, b⟩ := first
    rw [addLike]
    by_cases here : b = base
    · simp [here]
    · by_cases later : base ∈ rest.map (·.2)
      · rw [if_pos later] at ih
        simp only [if_neg here, List.map_cons, ih, List.mem_cons, later, or_true, if_true]
      · rw [if_neg later] at ih
        simp only [if_neg here, List.map_cons, ih, List.mem_cons, later, or_false, Ne.symm here, if_false, List.cons_append]

theorem nodup_bases_mergeLike (terms : List (Int64 × Expr)) : ((mergeLike terms).map (·.2)).Nodup := by
  have grows : ∀ merged : List (Int64 × Expr), (merged.map (·.2)).Nodup →
      ((terms.foldl (fun acc t => addLike t.1 t.2 acc) merged).map (·.2)).Nodup := by
    induction terms with
    | nil => exact fun _ nodup => nodup
    | cons t rest ih =>
      intro merged nodup
      refine ih _ ?_
      rw [bases_addLike]
      split
      · exact nodup
      · rename_i new
        refine List.nodup_append.mpr ⟨nodup, List.nodup_singleton _, fun b member b' isNew same => ?_⟩
        exact new (List.mem_singleton.mp isNew ▸ same ▸ member)
  exact grows [] .nil

/-- A term stands with the factor that is found for it. -/
theorem mem_iff_factorOf (nodup : (terms.map (·.2)).Nodup) {c : Int64} {b : Expr} :
    (c, b) ∈ terms ↔ factorOf b terms = some c := by
  induction terms with
  | nil => simp [factorOf]
  | cons first rest ih =>
    obtain ⟨c', b'⟩ := first
    obtain ⟨new, nodup⟩ := List.nodup_cons.mp nodup
    rw [factorOf, List.mem_cons, ih nodup]
    by_cases same : b' = b
    · have absent : factorOf b rest ≠ some c := by
        intro found
        exact new (List.mem_map.mpr ⟨(c, b), (ih nodup).mpr found, same.symm⟩)
      simp [same, absent, eq_comm]
    · simp [same, Ne.symm same]

/-- Like terms add up to the same, whatever the order. -/
theorem mergeLike_perm (perm : terms.Perm terms') : (mergeLike terms).Perm (mergeLike terms') := by
  have nodup := nodup_bases_mergeLike terms
  have nodup' := nodup_bases_mergeLike terms'
  refine (List.perm_ext_iff_of_nodup (.of_map _ nodup) (.of_map _ nodup')).mpr ?_
  rintro ⟨c, b⟩
  rw [mem_iff_factorOf nodup, mem_iff_factorOf nodup', factorOf_mergeLike_perm perm]

end

/-! ### Operands in another order -/

/-- The expression is formed, and its recurrences are over the given loops. -/
def Expr.FormedOver (numbers : List Value) (L : LoopId → Prop) (e : Expr) : Prop :=
  e.Formed numbers ∧ e.Over L fun _ => True

theorem kind_formedOver (F : Forest) (numbers : List Value) (L : LoopId → Prop) : Kind F (Expr.FormedOver numbers L) where
  const n := ⟨trivial, trivial⟩
  operand := by
    rintro e p ⟨formed, uses⟩ member
    cases e with
    | const n => cases member
    | unknown number v => cases member
    | recur l s t =>
      simp only [Expr.operands, List.mem_cons, List.not_mem_nil, or_false] at member
      rcases member with rfl | rfl
      · exact ⟨formed.1, uses.2.1⟩
      · exact ⟨formed.2, uses.2.2⟩
    | sum k ts | product k ts =>
      rcases Expr.eq_or_mem_of_mem_withConstant member with ⟨rfl, _⟩ | inside
      · exact ⟨trivial, trivial⟩
      · exact ⟨Expr.allFormed_iff.mp formed.2 p inside, Expr.allOver_iff.mp uses p inside⟩
  recur := fun isRecur isStart isStep _ _ => ⟨⟨isStart.1, isStep.1⟩, isRecur.2.1, isStart.2, isStep.2⟩
  sumOf := by
    intro es each
    exact ⟨Expr.formed_sumOf fun e member => (each e member).1,
      Expr.over_sumOf (Expr.allOver_iff.mpr fun e member => (each e member).2)⟩
  product := by
    intro k es each
    have inOrder : ∀ e ∈ Expr.ordered es, e.FormedOver numbers L ∧ ∀ n, e ≠ .const n :=
      fun e member => each e ((Expr.ordered_perm es).mem_iff.mp member)
    refine ⟨⟨fun _ n first => ?_, Expr.allFormed_iff.mpr fun e member => (inOrder e member).1.1⟩,
      Expr.allOver_iff.mpr fun e member => (inOrder e member).1.2⟩
    exact absurd rfl ((inOrder _ (List.mem_of_mem_head? first)).2 n)

theorem formedOver_recurred {numbers : List Value} {L : LoopId → Prop} {l : LoopId} {start step : Expr} (inside : L l)
    (isStart : start.FormedOver numbers L) (isStep : step.FormedOver numbers L) :
    (recurred l start step).FormedOver numbers L := by
  unfold recurred
  split
  · exact isStart
  · exact ⟨⟨isStart.1, isStep.1⟩, inside, isStart.2, isStep.2⟩

/-- What unique answers give for items in another order stands in another order. -/
theorem perm_of_forall₂ {α β : Type} {R : α → β → Prop} {as as' : List α} {bs bs' : List β}
    (unique : ∀ a b b', R a b → R a b' → b = b') (perm : as.Perm as') (first : List.Forall₂ R as bs)
    (second : List.Forall₂ R as' bs') : bs.Perm bs' := by
  obtain ⟨bs'', related, same⟩ := List.perm_comp_forall₂ perm second
  rw [List.right_unique_forall₂' (fun a b b' => unique a b b') first related]
  exact same

section

variable {self : Callee} (agree : ∀ op ops, Build.Agree (self op ops) (self op ops)) {numbers : List Value}
  {L : LoopId → Prop} {F : Forest} {k : Int64} {terms terms' : List Expr} {e e' : Expr} {t t' s s' : Table}

include agree in
/-- The answer to a plan does not depend on what is recorded. -/
theorem Plan.Leads.unique {α : Type} {p : Plan α} {a b : α} (first : p.Leads self t a t') (second : p.Leads self s b s') :
    a = b := by
  have same := (Plan.Alike.refl p).agree agree t s
  rw [first, second] at same
  exact Option.some.inj same

include agree in
theorem Chain.perm {α β : Type} {g : α → Plan β} {R : α → Table → β → Table → Prop}
    (each : ∀ a t b t', (g a).Leads self t b t' ↔ R a t b t') {as as' : List α} {bs bs' : List β} (perm : as.Perm as')
    (first : Chain R as t bs t') (second : Chain R as' s bs' s') : bs.Perm bs' := by
  refine perm_of_forall₂ (R := fun a b => ∃ t t', R a t b t') ?_ perm
    (first.forall₂ fun _ _ t _ t' here => ⟨t, t', here⟩) (second.forall₂ fun _ _ t _ t' here => ⟨t, t', here⟩)
  rintro a b b' ⟨_, _, here⟩ ⟨_, _, there⟩
  exact ((each _ _ _ _).mpr here).unique agree ((each _ _ _ _).mpr there)

include agree in
theorem Combines.perm {out out' : List Expr} (perm : terms.Perm terms') (first : Combines self terms t out t')
    (second : Combines self terms' s out' s') : out.Perm out' := by
  obtain ⟨split, scale⟩ := first
  obtain ⟨split', scale'⟩ := second
  have parts := split.perm agree (fun _ _ _ _ => Plan.leads_splitCoeff) perm split'
  exact (scale.perm agree (fun _ _ _ _ => Plan.leads_scaled) (mergeLike_perm parts) scale').flatten

theorem addedUp_perm (formed : ∀ e ∈ terms, e.Formed numbers) (perm : terms.Perm terms') :
    addedUp (andConstant k terms) = addedUp (andConstant k terms') := by
  have all : (andConstant k terms).Perm (andConstant k terms') := by
    unfold andConstant
    split
    · exact perm
    · exact perm.append_right _
  have formed : ∀ e ∈ andConstant k terms, e.Formed numbers := by
    unfold andConstant
    split
    · exact formed
    · simpa [or_imp, forall_and, Expr.Formed] using formed
  generalize andConstant k terms = es at all formed ⊢
  generalize andConstant k terms' = es' at all ⊢
  match es, es', all.length_eq with
  | [], [], _ => rfl
  | [_], [_], _ => exact List.singleton_perm_singleton.mp all
  | _ :: _ :: _, _ :: _ :: _, _ => simp only [addedUp, Expr.sumOf, Expr.ordered_perm_eq formed all]

section

variable (keeps : Fulfils (fun ops => ∀ p ∈ ops, p.FormedOver numbers L) (fun _ _ e => e.FormedOver numbers L) self)
include agree keeps

theorem finishSum_perm (F : Forest) (each : ∀ e ∈ terms, e.FormedOver numbers L) (perm : terms.Perm terms')
    (first : (finishSum k terms).Leads self t e t') (second : (finishSum k terms').Leads self s e' s') : e = e' := by
  obtain ⟨out, _, combines, isSum⟩ := Plan.leads_finishSum.mp first
  obtain ⟨out', _, combines', isSum'⟩ := Plan.leads_finishSum.mp second
  have good := (kind_formedOver F numbers L).of_combines keeps combines each
  rw [(Plan.leads_addUp.mp isSum).1, (Plan.leads_addUp.mp isSum').1]
  exact addedUp_perm (fun e member => (good e member).1) (combines.perm agree perm combines')

variable (sums : ∀ ⦃ops ops' t e t' s e' s'⦄, (∀ p ∈ ops, p.FormedOver numbers L) → ops.Perm ops' →
  self .sum ops t = some (e, t') → self .sum ops' s = some (e', s') → e = e')
include sums

theorem addMerged_perm (F : Forest) {merged : Expr} (each : ∀ e ∈ terms, e.FormedOver numbers L) (good : merged.FormedOver numbers L)
    (perm : terms.Perm terms') (first : (addMerged k terms merged).Leads self t e t')
    (second : (addMerged k terms' merged).Leads self s e' s') : e = e' := by
  rcases Plan.leads_addMerged.mp first with ⟨recurs, first⟩ | ⟨none, first⟩
  · rcases Plan.leads_addMerged.mp second with ⟨_, second⟩ | ⟨none, _⟩
    · refine finishSum_perm agree keeps F ?_ (perm.append_right _) first second
      simpa [or_imp, forall_and] using ⟨each, good⟩
    · rw [none] at recurs
      cases recurs
  · rcases Plan.leads_addMerged.mp second with ⟨recurs, _⟩ | ⟨_, second⟩
    · rw [none] at recurs
      cases recurs
    · refine sums ?_ (perm.append_right _) first second
      simpa [or_imp, forall_and] using ⟨each, good, (kind_formedOver F numbers L).const k⟩

theorem Sums.perm (ranked : Ranked F L) (each : ∀ e ∈ terms, e.FormedOver numbers L) (perm : terms.Perm terms')
    (first : Sums self F k terms t e t') (second : Sums self F k terms' s e' s') : e = e' := by
  have kind := kind_formedOver F numbers L
  have leaders := leader_perm ranked (fun l s t member => (each _ member).2.1) perm
  have parts : ∀ l, (terms.filterMap (partsOver l)).Perm (terms'.filterMap (partsOver l)) := fun l => perm.filterMap _
  have rest : ∀ l, (termsBeside l terms).Perm (termsBeside l terms') := fun l => perm.filter _
  cases first with
  | plain leading isSum =>
    rw [leaders] at leading
    cases second with
    | plain _ isSum' => exact finishSum_perm agree keeps F each perm isSum isSum'
    | gathered leading' _ _ _ _ => cases leading.symm.trans leading'
    | merged leading' _ _ _ _ _ => cases leading.symm.trans leading'
  | gathered leading steady isStart isStep isSum =>
    rw [leaders] at leading
    cases second with
    | plain none _ => cases leading.symm.trans none
    | gathered leading' _ isStart' isStep' isSum' =>
      obtain rfl := Option.some.inj (leading.symm.trans leading')
      obtain rfl := sums (kind.steps each) ((parts _).map _) isStep isStep'
      obtain rfl := sums (kind.origins k each) ((((parts _).map _).append (rest _)).append_right _) isStart isStart'
      rw [(Plan.leads_recurrence.mp isSum).1, (Plan.leads_recurrence.mp isSum').1]
    | merged leading' varies _ _ _ _ =>
      obtain rfl := Option.some.inj (leading.symm.trans leading')
      rw [(rest _).all_eq] at steady
      cases steady.symm.trans varies
  | @merged l start step merged _ _ _ _ _ _ found varies isStart isStep isMerged isSum =>
    have leading := leaders ▸ found
    cases second with
    | plain none _ => cases leading.symm.trans none
    | gathered leading' steady _ _ _ =>
      obtain rfl := Option.some.inj (leading.symm.trans leading')
      rw [(rest _).all_eq] at varies
      cases steady.symm.trans varies
    | merged leading' _ isStart' isStep' isMerged' isSum' =>
      obtain rfl := Option.some.inj (leading.symm.trans leading')
      obtain rfl := sums (kind.steps each) ((parts _).map _) isStep isStep'
      obtain rfl := sums (kind.starts each) ((parts _).map _) isStart isStart'
      obtain rfl := (Plan.leads_recurrence.mp isMerged).1
      obtain rfl := (Plan.leads_recurrence.mp isMerged').1
      obtain ⟨s, x, member⟩ := leader_mem found
      refine addMerged_perm agree keeps sums F (forall_mem_termsBeside each) ?_ (rest l) isSum isSum'
      exact formedOver_recurred (each _ member).2.1 (keeps isStart (kind.starts each)) (keeps isStep (kind.steps each))

end

/-- Several factors are only put in order. -/
theorem Multiplies.of_several {x y : Expr} {more : List Expr} (multiplies : Multiplies self k (x :: y :: more) t e t') :
    e = if k = 0 then .const 0 else .product k (Expr.ordered (x :: y :: more)) := by
  cases multiplies with
  | zero zero => rw [if_pos zero]
  | several nonzero isProduct => rw [if_neg nonzero, (Plan.leads_multiplyOut.mp isProduct).1]

include agree in
theorem productPlan_perm {ops ops' : List Expr} (formed : ∀ p ∈ (Expr.factorsOf ops).2, p.Formed numbers)
    (perm : ops.Perm ops') (first : (productPlan ops).Leads self t e t') (second : (productPlan ops').Leads self s e' s') :
    e = e' := by
  obtain ⟨constant, factors⟩ := Expr.factorsOf_perm perm
  have alike : (Expr.factorsOf ops).2 = (Expr.factorsOf ops').2 → e = e' := by
    intro same
    have plans : productPlan ops = productPlan ops' := by
      unfold productPlan
      rw [Prod.ext constant same]
    exact first.unique agree (plans ▸ second)
  have opened := Plan.leads_productPlan.mp first
  have opened' := Plan.leads_productPlan.mp second
  rw [← constant] at opened'
  generalize (Expr.factorsOf ops).2 = xs at *
  generalize (Expr.factorsOf ops').2 = ys at *
  match xs, ys, factors.length_eq with
  | [], [], _ => exact alike rfl
  | [_], [_], _ => exact alike (by rw [List.singleton_perm_singleton.mp factors])
  | _ :: _ :: _, _ :: _ :: _, _ => rw [opened.of_several, opened'.of_several, Expr.ordered_perm_eq formed factors]

end

theorem canonical_sum_perm {numbers : List Value} {L : LoopId → Prop} {F : Forest} (ranked : Ranked F L) (depth : Nat)
    {ops ops' : List Expr} {e e' : Expr} {t t' s s' : Table} (each : ∀ p ∈ ops, p.FormedOver numbers L)
    (perm : ops.Perm ops') (first : canonical F depth .sum ops t = some (e, t'))
    (second : canonical F depth .sum ops' s = some (e', s')) : e = e' := by
  induction depth generalizing ops ops' e e' t t' s s' with
  | zero => cases first
  | succ depth ih =>
    have kind := kind_formedOver F numbers L
    have opened := Plan.leads_sumPlan.mp first
    have opened' := Plan.leads_sumPlan.mp second
    obtain ⟨constant, terms⟩ := Expr.summandsOf_perm perm
    rw [← constant] at opened'
    exact opened.perm (Build.agree_canonical F depth) (kind.canonical depth) (fun _ _ _ _ _ _ _ _ => ih) ranked
      (kind.summandsOf each) terms opened'

theorem canonical_product_perm {numbers : List Value} {F : Forest} (depth : Nat) {ops ops' : List Expr} {e e' : Expr}
    {t t' s s' : Table} (each : ∀ p ∈ ops, p.Formed numbers) (perm : ops.Perm ops')
    (first : canonical F depth .product ops t = some (e, t'))
    (second : canonical F depth .product ops' s = some (e', s')) : e = e' := by
  cases depth with
  | zero => cases first
  | succ depth =>
    have opened := (kind_formedOver F numbers fun _ => True).factorsOf fun p member => ⟨each p member, p.over_true⟩
    exact productPlan_perm (Build.agree_canonical F depth) (fun p member => (opened p member).1.1) perm first second

/-! ### Questions -/

theorem forest_asked (f : Function) (questions : List Question) : (Context.asked f questions).forest = .ofFunction f := by
  have memory : OfMemory fun c => c.forest = .ofFunction f := fun forest _ same => forest.trans same
  refine memory.asked (fun v c same => ?_) rfl questions
  exact ((Query.settles_evolution v).grows c).forest.trans same

/-- The same is put together from operands in any order, whatever is asked in between. The operands were at hand, and
    their recurrences are over the given loops. -/
def OrderFree (f : Function) (op : Combination) (L : LoopId → Prop) : Prop :=
  ∀ {questions es}, Session f (fun _ _ _ => True) questions es → ∀ {ops ops'}, ops.Perm ops' →
    (∀ e ∈ ops, e ∈ es ∧ e.Over L fun _ => True) → ∀ more,
      (Query.combine op ops (.asked f questions)).1 = (Query.combine op ops' (.asked f (questions ++ more))).1

section

variable {f : Function} {op : Combination} {L : LoopId → Prop}

theorem orderFree_of_canonical (free : ∀ numbers depth {ops ops' e e' t t' s s'},
    (∀ p ∈ ops, Expr.FormedOver numbers L p) → ops.Perm ops' → canonical (.ofFunction f) depth op ops t = some (e, t') →
      canonical (.ofFunction f) depth op ops' s = some (e', s') → e = e') : OrderFree f op L := by
  intro questions es session ops ops' perm atHand more
  obtain ⟨filed, recorded⟩ := (closed_records (.ofFunction f)).session (filed_ofForest _) session
  obtain ⟨e, t, made, same⟩ := Query.exists_combine op ops (.asked f questions)
  obtain ⟨e', t', made', same'⟩ := Query.exists_combine op ops' (.asked f (questions ++ more))
  have depth : enough ops = enough ops' := by rw [enough, enough, Expr.sizes_perm perm]
  rw [forest_asked] at made
  rw [forest_asked, ← depth] at made'
  rw [same, same']
  refine free (Context.asked f questions).unknowns _ (fun p member => ?_) perm made made'
  obtain ⟨inside, uses⟩ := atHand p member
  exact ⟨(recorded p inside).formed filed.tidy, uses⟩

/-- The number of the iteration of a loop. -/
def counter (l : LoopId) : Expr :=
  .recur l (.const 0) (.const 1)

theorem exists_session_counters (f : Function) (l m : LoopId) : ∃ questions es,
    Session f (fun _ _ _ => True) questions es ∧ counter l ∈ es ∧ counter m ∈ es := by
  have recurs : ∀ l c, (Query.recur l (.const 0) (.const 1) false c).1 = counter l := by
    intro l c
    rcases Query.recur_cases l (.const 0) (.const 1) false c with ⟨zero, _⟩ | ⟨_, same⟩
    · cases zero
    · exact same
  have fresh : Session f (fun _ _ _ => True) [] [] := .start
  have zero := fresh.answer (.constant 0) (.const 0) trivial (by simp [Question.operands]) (congrArg some (Query.const_fst 0 _))
  have one := zero.answer (.constant 1) (.const 1) trivial (by simp [Question.operands]) (congrArg some (Query.const_fst 1 _))
  have first := one.answer (.recurrence l (.const 0) (.const 1) false) (counter l) trivial
    (by simp [Question.operands]) (congrArg some (recurs l _))
  have second := first.answer (.recurrence m (.const 0) (.const 1) false) (counter m) trivial
    (by simp [Question.operands]) (congrArg some (recurs m _))
  exact ⟨_, _, second, by simp, by simp⟩

/-- Of two loops of one depth the one whose recurrence comes first leads. -/
theorem loop?_sum_counters {F : Forest} {l m : LoopId} (level : F.depth l = F.depth m) (other : l ≠ m)
    (apart : F.containsLoop l m = false) {c : Context} (forest : c.forest = F) :
    (Query.combine .sum [counter l, counter m] c).1.loop? = some l := by
  obtain ⟨e, t, made, same⟩ := Query.exists_combine .sum [counter l, counter m] c
  rw [same]
  rw [forest] at made
  obtain ⟨depth, deep⟩ : ∃ depth, enough [counter l, counter m] = depth + 1 := ⟨_, rfl⟩
  rw [deep] at made
  have leads : (sumPlan F [counter l, counter m]).Leads (canonical F depth) c.table e t := made
  have sums : Sums (canonical F depth) F 0 [counter l, counter m] c.table e t := Plan.leads_sumPlan.mp leads
  have leading : leader F [counter l, counter m] = some l := by
    simp [leader, counter, Expr.loop?, level]
  have here : partsOver l (counter l) = some (.const 0, .const 1) := if_pos rfl
  have there : partsOver l (counter m) = none := if_neg (Ne.symm other)
  cases sums with
  | plain none _ => cases none.symm.trans leading
  | gathered found _ _ isStep isSum =>
    obtain rfl := Option.some.inj (leading.symm.trans found)
    rw [stepsOver, List.filterMap_cons_some here, List.filterMap_cons_none there] at isStep
    rw [(Plan.leads_recurrence.mp isSum).1, yields_sum_const rfl isStep]
    rfl
  | merged found varies _ _ _ _ =>
    obtain rfl := Option.some.inj (leading.symm.trans found)
    have steady : (counter m).isInvariant F l = true := by simp [counter, Expr.isInvariant, apart]
    simp [termsBeside, here, there, steady] at varies

/-- Sums of recurrences over loops of one depth depend on the order. -/
theorem ranked_of_orderFree (flow : f.Connected) (loops : ∀ l, L l → l ∈ (Forest.ofFunction f).ids)
    (free : OrderFree f .sum L) : Ranked (.ofFunction f) L := by
  intro l m inL inM level
  by_contra other
  have apart : ∀ {l m}, L l → L m → (Forest.ofFunction f).depth l = (Forest.ofFunction f).depth m → l ≠ m →
      (Forest.ofFunction f).containsLoop l m = false := by
    intro l m inL inM level other
    by_contra around
    rw [Bool.not_eq_false] at around
    have := Forest.depth_lt_of_containsLoop flow (loops l inL) (loops m inM) around other
    omega
  obtain ⟨questions, es, session, first, second⟩ := exists_session_counters f l m
  have uses : ∀ {l}, L l → (counter l).Over L fun _ => True := fun inside => ⟨inside, trivial, trivial⟩
  have same := free session (.swap (counter m) (counter l) []) (by simp [first, second, uses inL, uses inM]) []
  have leads := loop?_sum_counters level other (apart inL inM level other) (forest_asked f questions)
  have leads' := loop?_sum_counters level.symm (Ne.symm other) (apart inM inL level.symm (Ne.symm other))
    (forest_asked f (questions ++ []))
  rw [same, leads'] at leads
  exact other (Option.some.inj leads).symm

/-- The order of factors never matters, and that of terms does not matter if all recurrences are over loops of
    different depths. In a connected function it matters otherwise. -/
theorem orderFree_iff_ranked (f : Function) : OrderFree f .product (fun _ => True) ∧
    ∀ L : LoopId → Prop, (Ranked (.ofFunction f) L → OrderFree f .sum L) ∧
      (f.Connected → (∀ l, L l → l ∈ (Forest.ofFunction f).ids) →
        (OrderFree f .sum L ↔ Ranked (.ofFunction f) L)) := by
  have ordered : ∀ L, Ranked (.ofFunction f) L → OrderFree f .sum L := by
    intro L ranked
    exact orderFree_of_canonical fun numbers depth _ _ _ _ _ _ _ _ each perm => canonical_sum_perm ranked depth each perm
  refine ⟨orderFree_of_canonical fun numbers depth _ _ _ _ _ _ _ _ each perm first second => ?_, fun L => ⟨ordered L, ?_⟩⟩
  · exact canonical_product_perm depth (fun p member => (each p member).1) perm first second
  · exact fun flow loops => ⟨ranked_of_orderFree flow loops, ordered L⟩

end

/-- Two loops count one after the other, and then their counters are added in both orders. -/
def siblings : Function where
  name := "siblings"
  receiver := none
  types := []
  params := [⟨"n", .basic .int, 1⟩]
  free := []
  globals := []
  constants := [⟨.int 0, .basic .int⟩, ⟨.int 1, .basic .int⟩]
  blocks := [
    ⟨"entry", [], [1], [⟨.jump, none, 0⟩]⟩,
    ⟨"for.loop", [0, 2], [2, 3], [
      ⟨.phi [.const 0, .result ⟨2, 0⟩] "i", some ("t0", .basic .int), 0⟩,
      ⟨.binary (.compare .lt) (.result ⟨1, 0⟩) (.param 0), some ("t1", .basic .bool), 0⟩,
      ⟨.branch (.result ⟨1, 1⟩), none, 0⟩]⟩,
    ⟨"for.body", [1], [1], [
      ⟨.binary .add (.result ⟨1, 0⟩) (.const 1), some ("t2", .basic .int), 0⟩,
      ⟨.jump, none, 0⟩]⟩,
    ⟨"for.done", [1], [4], [⟨.jump, none, 0⟩]⟩,
    ⟨"for.loop", [3, 5], [5, 6], [
      ⟨.phi [.const 0, .result ⟨5, 0⟩] "j", some ("t3", .basic .int), 0⟩,
      ⟨.binary (.compare .lt) (.result ⟨4, 0⟩) (.param 0), some ("t4", .basic .bool), 0⟩,
      ⟨.branch (.result ⟨4, 1⟩), none, 0⟩]⟩,
    ⟨"for.body", [4], [4], [
      ⟨.binary .add (.result ⟨4, 0⟩) (.const 1), some ("t5", .basic .int), 0⟩,
      ⟨.jump, none, 0⟩]⟩,
    ⟨"for.done", [4], [], [
      ⟨.binary .add (.result ⟨1, 0⟩) (.result ⟨4, 0⟩), some ("t6", .basic .int), 0⟩,
      ⟨.binary .add (.result ⟨4, 0⟩) (.result ⟨1, 0⟩), some ("t7", .basic .int), 0⟩,
      ⟨.leave [.result ⟨6, 0⟩, .result ⟨6, 1⟩], none, 0⟩]⟩]
  recover := none

/-- One loop inside of the other, and two loops side by side. -/
theorem grid_orderFree :
    grid.Connected ∧ OrderFree grid .sum (· < 2) ∧ siblings.Connected ∧ ¬ OrderFree siblings .sum (· < 2) := by
  have nested := grid_wellFormed.connected
  have apart : siblings.Connected := ⟨by decide +kernel, by decide +kernel⟩
  refine ⟨nested, ((orderFree_iff_ranked grid).2 _).1 ?_, apart, fun free => ?_⟩
  · have depths : ∀ l < 2, ∀ m < 2, (Forest.ofFunction grid).depth l = (Forest.ofFunction grid).depth m → l = m := by
      decide +kernel
    exact fun l m inL inM level => depths l inL m inM level
  · have ranked := (((orderFree_iff_ranked siblings).2 _).2 apart (by decide +kernel)).mp free
    exact absurd (ranked 0 1 (by decide) (by decide) (by decide +kernel)) (by decide)

/-- Each order of the counters gives a sum of its own. -/
theorem siblings_sums_differ :
    (Query.combine .sum [counter 0, counter 1] (.asked siblings [])).1 = .recur 0 (counter 1) (.const 1) ∧
    (Query.combine .sum [counter 1, counter 0] (.asked siblings [])).1 = .recur 1 (counter 0) (.const 1) ∧
    (Query.evolution (.result ⟨6, 0⟩) (.asked siblings [])).1 = .recur 0 (counter 1) (.const 1) ∧
    (Query.evolution (.result ⟨6, 1⟩) (.asked siblings [])).1 = .recur 1 (counter 0) (.const 1) := by
  decide +kernel

end LoopConflict.Evolution
