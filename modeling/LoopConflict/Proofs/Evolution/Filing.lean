import LoopConflict.Proofs.Evolution.Renumbering

/-!
Recording expressions. A table is tidy if each expression stands in it once, under its own key and together with
its terms, which stand in order (`Table.Tidy`); it may also be required that all recurrences are marked as ones that do
not wrap around. Sums and products of recorded expressions are recorded and leave the table tidy
(`keepsFiled_canonical`): what is recorded stays, and since keys can be read back, an entry that is found under a key is
one of the expression itself. With other numbers for unknown values the same is made with these numbers, as long as the
terms of what is recorded stay in order (`Table.Keeps`).
-/
namespace LoopConflict.Evolution

open Loop (Forest LoopId)
open Program (Value)

namespace Expr

/-! ### Numbers that are given out later -/

mutual

theorem Formed.later {numbers : List Value} (more : List Value) : ∀ {e : Expr}, e.Formed numbers → e.Formed (numbers ++ more)
  | .const _, _ => trivial
  | .unknown _ _, formed => by
    obtain ⟨small, _⟩ := List.getElem?_eq_some_iff.mp formed
    exact (List.getElem?_append_left small).trans formed
  | .recur _ _ _, formed => ⟨formed.1.later more, formed.2.later more⟩
  | .sum _ _, formed => ⟨formed.1, AllFormed.later more formed.2⟩
  | .product _ _, formed => ⟨formed.1, AllFormed.later more formed.2⟩

theorem AllFormed.later {numbers : List Value} (more : List Value) :
    ∀ {es : List Expr}, AllFormed numbers es → AllFormed (numbers ++ more) es
  | [], _ => trivial
  | _ :: _, formed => ⟨formed.1.later more, AllFormed.later more formed.2⟩

end

/-! ### Sums in order -/

theorem formed_sumOf {numbers : List Value} {terms : List Expr} (formed : ∀ e ∈ terms, e.Formed numbers) :
    (sumOf terms).Formed numbers := by
  have inOrder : AllFormed numbers (ordered terms) :=
    allFormed_iff.mpr fun e member => formed e ((ordered_perm terms).mem_iff.mp member)
  rw [sumOf]
  split
  · rename_i c rest first
    rw [first] at inOrder
    by_cases zero : c = 0
    · rw [if_pos zero]
      refine ⟨fun _ n isFirst => ?_, inOrder⟩
      cases isFirst
      exact zero
    · rw [if_neg zero]
      exact ⟨fun isZero => absurd isZero zero, inOrder.2⟩
  · rename_i other
    refine ⟨fun _ n isFirst => ?_, inOrder⟩
    obtain ⟨rest, first⟩ := List.head?_eq_some_iff.mp isFirst
    exact absurd first (other n rest)

end Expr

theorem isSome_loop?_of_partsOver {l : LoopId} {e : Expr} (parts : (partsOver l e).isSome = true) :
    e.loop?.isSome = true := by
  cases e with
  | recur m s t => rfl
  | _ => cases parts

/-! ### Tables -/

namespace Table

variable {numbers : List Value} {marked : Prop} {t t' : Table} {e : Expr}

/-- The expression is recorded under its key. -/
def Holds (t : Table) (e : Expr) : Prop :=
  ∃ noWrap, t.find? e.key = some ⟨e.key, e, noWrap⟩

/-- What is found under a key stays there. -/
def Extends (t t' : Table) : Prop :=
  ∀ key entry, t.find? key = some entry → t'.find? key = some entry

/-- Each expression is recorded once and under its own key, and so are its terms, which stand in order. If it is
    required, all recurrences are marked. -/
structure Tidy (numbers : List Value) (marked : Prop) (t : Table) : Prop where
  distinct : (t.map (·.key)).Nodup
  own : ∀ entry ∈ t, entry.key = entry.expr.key
  formed : ∀ entry ∈ t, entry.expr.Formed numbers
  operands : ∀ entry ∈ t, ∀ p ∈ entry.expr.operands, t.Holds p
  inOrder : ∀ entry ∈ t, entry.expr.InOrder
  marks : marked → ∀ entry ∈ t, entry.expr.loop?.isSome = true → entry.noWrap = true

theorem Extends.refl (t : Table) : t.Extends t :=
  fun _ _ found => found

theorem Extends.trans {t'' : Table} (first : t.Extends t') (second : t'.Extends t'') : t.Extends t'' :=
  fun key entry found => second key entry (first key entry found)

theorem Holds.later (holds : t.Holds e) (later : t.Extends t') : t'.Holds e := by
  obtain ⟨noWrap, found⟩ := holds
  exact ⟨noWrap, later _ _ found⟩

theorem Holds.mem (holds : t.Holds e) : ∃ entry ∈ t, entry.expr = e := by
  obtain ⟨noWrap, found⟩ := holds
  exact ⟨_, List.mem_of_find?_eq_some found, rfl⟩

theorem Holds.formed (holds : t.Holds e) (tidy : t.Tidy numbers marked) : e.Formed numbers := by
  obtain ⟨entry, member, rfl⟩ := holds.mem
  exact tidy.formed entry member

theorem Holds.operand (holds : t.Holds e) (tidy : t.Tidy numbers marked) {p : Expr} (isPart : p ∈ e.operands) : t.Holds p := by
  obtain ⟨entry, member, rfl⟩ := holds.mem
  exact tidy.operands entry member p isPart

theorem Holds.part (holds : t.Holds e) (tidy : t.Tidy numbers marked) {p : Expr} (isPart : p.Part e) : t.Holds p := by
  induction isPart with
  | self => exact holds
  | inside member _ ih => exact ih (holds.operand tidy member)

theorem Holds.inOrder (holds : t.Holds e) (tidy : t.Tidy numbers marked) : e.InOrder := by
  obtain ⟨entry, member, rfl⟩ := holds.mem
  exact tidy.inOrder entry member

/-- A recurrence is marked if it is required. -/
theorem Holds.noWrap (holds : t.Holds e) (tidy : t.Tidy numbers marked) (required : marked)
    (recurs : e.loop?.isSome = true) : t.noWrap e = true := by
  obtain ⟨noWrap, found⟩ := holds
  rw [Table.noWrap, found]
  exact tidy.marks required _ (List.mem_of_find?_eq_some found) recurs

theorem record_cases (t : Table) (e : Expr) (noWrap : Bool) :
    (∃ entry, t.find? e.key = some entry ∧ t.record e noWrap = t) ∨
      (t.find? e.key = none ∧ t.record e noWrap = ⟨e.key, e, noWrap⟩ :: t) := by
  cases found : t.find? e.key with
  | some entry => exact .inl ⟨entry, rfl, by simp [record, found]⟩
  | none => exact .inr ⟨rfl, by simp [record, found]⟩

theorem extends_record (t : Table) (e : Expr) (noWrap : Bool) : t.Extends (t.record e noWrap) := by
  rcases record_cases t e noWrap with ⟨entry, _, same⟩ | ⟨fresh, grown⟩
  · rw [same]
    exact .refl t
  · rw [grown]
    intro key entry found
    have other : e.key ≠ key := by
      rintro rfl
      rw [fresh] at found
      cases found
    simpa [find?, List.find?_cons, other] using found

/-- An entry with the key of an expression is one of this expression. -/
theorem Tidy.eq_of_find? (tidy : t.Tidy numbers marked) (formed : e.Formed numbers) {entry : Entry}
    (found : t.find? e.key = some entry) : entry = ⟨e.key, e, entry.noWrap⟩ := by
  have member := List.mem_of_find?_eq_some found
  have key : entry.key = e.key := by simpa using List.find?_some found
  have isE : entry.expr = e :=
    Expr.key_injective (tidy.formed entry member) formed ((tidy.own entry member).symm.trans key)
  rw [← key, ← isE]

/-- An expression whose terms are recorded may be recorded. -/
theorem Tidy.record (tidy : t.Tidy numbers marked) (formed : e.Formed numbers) (operands : ∀ p ∈ e.operands, t.Holds p)
    (inOrder : e.InOrder) {noWrap : Bool} (marks : marked → e.loop?.isSome = true → noWrap = true) :
    (t.record e noWrap).Tidy numbers marked ∧ (t.record e noWrap).Holds e := by
  have later := extends_record t e noWrap
  rcases record_cases t e noWrap with ⟨entry, found, same⟩ | ⟨fresh, grown⟩
  · rw [same]
    exact ⟨tidy, entry.noWrap, found.trans (congrArg some (tidy.eq_of_find? formed found))⟩
  · rw [grown] at later ⊢
    refine ⟨⟨?_, ?_, ?_, ?_, ?_, ?_⟩, noWrap, by simp [find?]⟩
    · have absent : ∀ entry ∈ t, entry.key ≠ e.key := by
        simpa [find?] using fresh
      simpa using ⟨absent, tidy.distinct⟩
    · exact List.forall_mem_cons.mpr ⟨rfl, tidy.own⟩
    · exact List.forall_mem_cons.mpr ⟨formed, tidy.formed⟩
    · refine List.forall_mem_cons.mpr ⟨fun p isPart => (operands p isPart).later later, ?_⟩
      exact fun entry member p isPart => (tidy.operands entry member p isPart).later later
    · exact List.forall_mem_cons.mpr ⟨inOrder, tidy.inOrder⟩
    · exact fun required => List.forall_mem_cons.mpr ⟨marks required, tidy.marks required⟩

theorem Tidy.later (tidy : t.Tidy numbers marked) (more : List Value) : t.Tidy (numbers ++ more) marked :=
  ⟨tidy.distinct, tidy.own, fun entry member => (tidy.formed entry member).later more, tidy.operands, tidy.inOrder,
    tidy.marks⟩

/-- The terms of what is recorded are in order with other numbers for unknown values, too. -/
def Keeps (number : Value → Nat) (t : Table) : Prop :=
  ∀ e, t.Holds e → (e.renumber number).InOrder

theorem Keeps.before {number : Value → Nat} (keeps : t'.Keeps number) (later : t.Extends t') : t.Keeps number :=
  fun e holds => keeps e (holds.later later)

/-- The expression may be put together with others: it is recorded, or a constant. -/
def Ready (t : Table) (e : Expr) : Prop :=
  t.Holds e ∨ ∃ n, e = .const n

theorem Holds.ready (holds : t.Holds e) : t.Ready e :=
  .inl holds

theorem Ready.later (ready : t.Ready e) (later : t.Extends t') : t'.Ready e :=
  ready.imp_left fun holds => holds.later later

theorem Ready.holds (ready : t.Ready e) (tidy : t.Tidy numbers marked) {p : Expr} (isTerm : p.ProperTerm e) : t.Holds p := by
  rcases ready with holds | ⟨n, rfl⟩
  · exact holds.part tidy isTerm.1
  · exact absurd (Expr.eq_of_part_const isTerm.1) (isTerm.2 n)

theorem holds_summandsOf (tidy : t.Tidy numbers marked) {es : List Expr} (ready : ∀ e ∈ es, t.Ready e) :
    ∀ p ∈ (Expr.summandsOf es).2, t.Holds p := by
  intro p member
  obtain ⟨e, inside, isTerm⟩ := Expr.part_of_mem_summandsOf member
  exact (ready e inside).holds tidy isTerm

theorem holds_factorsOf (tidy : t.Tidy numbers marked) {es : List Expr} (ready : ∀ e ∈ es, t.Ready e) :
    ∀ p ∈ (Expr.factorsOf es).2, t.Holds p ∧ ∀ n, p ≠ .const n := by
  intro p member
  obtain ⟨e, inside, isTerm⟩ := Expr.part_of_mem_factorsOf member
  exact ⟨(ready e inside).holds tidy isTerm, isTerm.2⟩

/-- Start and step of recorded recurrences are recorded. -/
theorem holds_startsOver (tidy : t.Tidy numbers marked) {terms : List Expr} (holds : ∀ e ∈ terms, t.Holds e) {l : LoopId} :
    ∀ e ∈ startsOver l terms, t.Holds e :=
  forall_mem_startsOver fun _ _ here => (holds _ here).operand tidy (by simp [Expr.operands])

theorem holds_stepsOver (tidy : t.Tidy numbers marked) {terms : List Expr} (holds : ∀ e ∈ terms, t.Holds e) {l : LoopId} :
    ∀ e ∈ stepsOver l terms, t.Holds e :=
  forall_mem_stepsOver fun _ _ here => (holds _ here).operand tidy (by simp [Expr.operands])

/-- Recorded recurrences are marked if it is required. -/
theorem noneWraps_of_holds (tidy : t.Tidy numbers marked) (required : marked) {terms : List Expr}
    (holds : ∀ e ∈ terms, t.Holds e) (l : LoopId) : noneWraps l terms t = true := by
  refine List.all_eq_true.mpr fun e member => ?_
  obtain ⟨inside, parts⟩ := List.mem_filter.mp member
  exact (holds e inside).noWrap tidy required (isSome_loop?_of_partsOver parts)

end Table

/-! ### Making expressions -/

/-- The way from one table to another one: the second is tidy and keeps what was recorded, and the condition holds.
    With other numbers for unknown values one can go the same way from every table, as long as these keep the order of
    what is recorded. -/
structure Files (numbers : List Value) (marked : Prop) (number : Value → Nat) (t t' : Table) (P : Prop)
    (again : Table → Table → Prop) : Prop where
  tidy : t'.Tidy numbers marked
  later : t.Extends t'
  holds : P
  mirrored : t'.Keeps number → ∀ s, ∃ s', again s s'

section

variable {α β : Type} {numbers : List Value} {marked : Prop} {number : Value → Nat} {self : Callee} {t t' : Table}
  {e : Expr} {k : Int64}

theorem Files.imp {P Q : Prop} {again again' : Table → Table → Prop} (files : Files numbers marked number t t' P again)
    (holds : P → Q) (mirrors : ∀ s s', again s s' → again' s s') : Files numbers marked number t t' Q again' := by
  refine ⟨files.tidy, files.later, holds files.holds, fun keeps s => ?_⟩
  obtain ⟨s', here⟩ := files.mirrored keeps s
  exact ⟨s', mirrors s s' here⟩

theorem files_refl {P : Prop} {again : Table → Table → Prop} (tidy : t.Tidy numbers marked) (holds : P)
    (mirrors : ∀ s, again s s) : Files numbers marked number t t P again :=
  ⟨tidy, .refl t, holds, fun _ s => ⟨s, mirrors s⟩⟩

theorem files_record (tidy : t.Tidy numbers marked) (formed : e.Formed numbers) (operands : ∀ p ∈ e.operands, t.Holds p)
    (inOrder : e.InOrder) {noWrap : Bool} (marks : marked → e.loop?.isSome = true → noWrap = true)
    {again : Table → Table → Prop} (mirrors : (e.renumber number).InOrder → ∀ s, ∃ s', again s s') :
    Files numbers marked number t (t.record e noWrap) ((t.record e noWrap).Holds e) again := by
  obtain ⟨tidy', holds⟩ := tidy.record formed operands inOrder marks
  exact ⟨tidy', t.extends_record e noWrap, holds, fun keeps => mirrors (keeps e holds)⟩

theorem files_constant (number : Value → Nat) (tidy : t.Tidy numbers marked) (n : Int64) :
    Files numbers marked number t (t.record (.const n) false) ((t.record (.const n) false).Holds (.const n))
      fun s s' => s' = s.record (.const n) false :=
  files_record tidy (e := .const n) trivial (by simp [Expr.operands]) .nil (by simp [Expr.loop?]) fun _ _ => ⟨_, rfl⟩

theorem recurred_renumber (l : LoopId) (start step : Expr) :
    recurred l (start.renumber number) (step.renumber number) = (recurred l start step).renumber number := by
  unfold recurred
  rw [Expr.isZero_renumber]
  split <;> rfl

theorem files_recurrence (number : Value → Nat) {l : LoopId} {start step : Expr} {noWrap : Table → Bool} (tidy : t.Tidy numbers marked)
    (isStart : t.Holds start) (isStep : t.Holds step) (marks : marked → noWrap t = true)
    (leads : (recurrence l start step noWrap).Leads self t e t') (noWrap' : Table → Bool) :
    Files numbers marked number t t' (t'.Holds e) fun s s' =>
      (recurrence l (start.renumber number) (step.renumber number) noWrap').Leads self s (e.renumber number) s' := by
  obtain ⟨rfl, rfl⟩ := Plan.leads_recurrence.mp leads
  have mirrors : ∀ s, ∃ s', (recurrence l (start.renumber number) (step.renumber number) noWrap').Leads self s
      ((recurred l start step).renumber number) s' :=
    fun s => ⟨_, Plan.leads_recurrence.mpr ⟨(recurred_renumber l start step).symm, rfl⟩⟩
  unfold recurred at mirrors ⊢
  by_cases zero : step.isZero = true
  · rw [if_pos zero] at mirrors
    rw [if_pos zero, if_pos zero]
    exact ⟨tidy, .refl t, isStart, fun _ => mirrors⟩
  · rw [if_neg zero] at mirrors
    rw [if_neg zero, if_neg zero]
    have formed : (Expr.recur l start step).Formed numbers := ⟨isStart.formed tidy, isStep.formed tidy⟩
    exact files_record tidy formed (by simp [Expr.operands, isStart, isStep]) .nil (fun required _ => marks required)
      fun _ => mirrors

theorem files_addUp (number : Value → Nat) {terms : List Expr} (tidy : t.Tidy numbers marked) (holds : ∀ e ∈ terms, t.Holds e)
    (leads : (addUp terms).Leads self t e t') :
    Files numbers marked number t t' (t'.Holds e) fun s s' =>
      (addUp (terms.map (Expr.renumber number))).Leads self s (e.renumber number) s' := by
  match terms, leads with
  | [], leads =>
    obtain ⟨rfl, rfl⟩ := Plan.leads_constant.mp leads
    exact (files_constant number tidy 0).imp id fun s s' same => Plan.leads_constant.mpr ⟨rfl, same⟩
  | [x], leads =>
    obtain ⟨rfl, rfl⟩ := Plan.leads_pure.mp leads
    exact files_refl tidy (holds e (by simp)) fun s => Plan.leads_pure.mpr ⟨rfl, rfl⟩
  | x :: y :: more, leads =>
    obtain ⟨rfl, rfl⟩ := Plan.leads_made.mp leads
    have formed : ∀ e ∈ x :: y :: more, e.Formed numbers := fun e member => (holds e member).formed tidy
    refine files_record tidy (Expr.formed_sumOf formed) (fun p isPart => ?_)
      (Expr.inOrder_sumOf (Expr.strict_ordered formed)) (by simp [Expr.loop?_sumOf]) fun kept s => ?_
    · rw [Expr.operands_sumOf] at isPart
      exact holds p ((Expr.ordered_perm _).mem_iff.mp isPart)
    · exact ⟨_, Plan.leads_made.mpr ⟨(Expr.sumOf_renumber kept).symm, rfl⟩⟩

theorem files_multiplyOut (number : Value → Nat) {factors : List Expr} (tidy : t.Tidy numbers marked)
    (holds : ∀ e ∈ factors, t.Holds e ∧ ∀ n, e ≠ .const n) (leads : (multiplyOut k factors).Leads self t e t') :
    Files numbers marked number t t' (t'.Holds e) fun s s' =>
      (multiplyOut k (factors.map (Expr.renumber number))).Leads self s (e.renumber number) s' := by
  obtain ⟨rfl, rfl⟩ := Plan.leads_multiplyOut.mp leads
  -- The constant factor is recorded first, unless it is one.
  have first : Files numbers marked number t (if k = 1 then t else t.record (.const k) false)
      (k ≠ 1 → (if k = 1 then t else t.record (.const k) false).Holds (.const k)) fun _ _ => True := by
    by_cases one : k = 1
    · rw [if_pos one]
      exact files_refl tidy (fun other => absurd one other) fun _ => trivial
    · rw [if_neg one]
      exact (files_constant number tidy k).imp (fun holds _ => holds) fun _ _ _ => trivial
  generalize (if k = 1 then t else t.record (.const k) false) = t₁ at first ⊢
  have inOrder : ∀ x ∈ Expr.ordered factors, t₁.Holds x ∧ ∀ n, x ≠ .const n := by
    intro x member
    obtain ⟨held, noConst⟩ := holds x ((Expr.ordered_perm _).mem_iff.mp member)
    exact ⟨held.later first.later, noConst⟩
  have formed : (Expr.product k (Expr.ordered factors)).Formed numbers := by
    refine ⟨fun _ n isFirst => ?_, Expr.allFormed_iff.mpr fun x member => (inOrder x member).1.formed first.tidy⟩
    exact absurd rfl ((inOrder _ (List.mem_of_mem_head? isFirst)).2 n)
  have strict : Expr.Strict (Expr.ordered factors) := Expr.strict_ordered fun x member => (holds x member).1.formed tidy
  have last : Files numbers marked number t₁ (t₁.record (.product k (Expr.ordered factors)) false)
      ((t₁.record (.product k (Expr.ordered factors)) false).Holds (.product k (Expr.ordered factors))) fun s s' =>
        (multiplyOut k (factors.map (Expr.renumber number))).Leads self s
          ((Expr.product k (Expr.ordered factors)).renumber number) s' := by
    refine files_record first.tidy formed (fun p isPart => ?_) strict (by simp [Expr.loop?]) fun kept s => ?_
    · rcases Expr.eq_or_mem_of_mem_withConstant isPart with ⟨isConst, other⟩ | isFactor
      · exact isConst ▸ first.holds other
      · exact (inOrder p isFactor).1
    · refine ⟨_, Plan.leads_multiplyOut.mpr ⟨?_, rfl⟩⟩
      rw [Expr.renumber, Expr.renumberAll_eq, Expr.ordered_renumber]
      simpa [Expr.InOrder, Expr.terms] using kept
  exact ⟨last.tidy, first.later.trans last.later, last.holds, last.mirrored⟩

theorem Chain.files {R : α → Table → β → Table → Prop} {f : α → α} {r : β → β} {P : Table → β → Prop}
    (stays : ∀ {t t' b}, t.Extends t' → P t b → P t' b) {as : List α} {bs : List β} (chain : Chain R as t bs t')
    (tidy : t.Tidy numbers marked)
    (each : ∀ a ∈ as, ∀ t₁ b t₂, R a t₁ b t₂ → t₁.Tidy numbers marked → t.Extends t₁ →
      Files numbers marked number t₁ t₂ (P t₂ b) fun s s' => R (f a) s (r b) s') :
    Files numbers marked number t t' (∀ b ∈ bs, P t' b) fun s s' => Chain R (as.map f) s (bs.map r) s' := by
  induction chain with
  | nil => exact files_refl tidy (by simp) fun _ => .nil
  | @cons a b as bs t t₁ t₂ here there ih =>
    have first := each a (by simp) t b t₁ here tidy (.refl t)
    have rest := ih first.tidy fun a member t₁ b t₂ here tidy later =>
      each a (by simp [member]) t₁ b t₂ here tidy (first.later.trans later)
    refine ⟨rest.tidy, first.later.trans rest.later, ?_, fun keeps s => ?_⟩
    · exact List.forall_mem_cons.mpr ⟨stays rest.later first.holds, rest.holds⟩
    · obtain ⟨s₁, here'⟩ := first.mirrored (keeps.before rest.later) s
      obtain ⟨s₂, there'⟩ := rest.mirrored keeps s₁
      exact ⟨s₂, .cons here' there'⟩

/-- What is put together from expressions that are ready is recorded, and it can be put together with other numbers. -/
def KeepsFiled (numbers : List Value) (marked : Prop) (number : Value → Nat) (self : Callee) : Prop :=
  ∀ ⦃op ops t e t'⦄, self op ops t = some (e, t') → t.Tidy numbers marked → (∀ e ∈ ops, t.Ready e) →
    Files numbers marked number t t' (t'.Holds e) fun s s' =>
      self op (ops.map (Expr.renumber number)) s = some (e.renumber number, s')

variable (keeps : KeepsFiled numbers marked number self)
include keeps

theorem Splits.files {p : Int64 × Expr} (splits : Splits self e t p t') (tidy : t.Tidy numbers marked)
    (holds : t.Holds e) :
    Files numbers marked number t t' (t'.Holds p.2) fun s s' =>
      Splits self (e.renumber number) s (renumberTerm number p) s' := by
  cases splits with
  | whole plain =>
    refine files_refl tidy holds fun s => .whole fun k factors same => ?_
    cases e with
    | product k' factors' =>
      cases same
      exact plain k factors' rfl
    | _ => cases same
  | product other isBase =>
    have base := keeps isBase tidy fun e member => (holds.operand tidy (Expr.mem_withConstant member)).ready
    refine base.imp id fun s s' isBase' => ?_
    rw [Expr.renumber, Expr.renumberAll_eq]
    exact .product other isBase'

theorem Scales.files {p : Int64 × Expr} {out : List Expr} (scales : Scales self p t out t')
    (tidy : t.Tidy numbers marked) (holds : t.Holds p.2) :
    Files numbers marked number t t' (∀ e ∈ out, t'.Holds e) fun s s' =>
      Scales self (renumberTerm number p) s (out.map (Expr.renumber number)) s' := by
  cases scales with
  | zero => exact files_refl tidy (by simp) fun _ => .zero
  | one => exact files_refl tidy (by simpa using holds) fun _ => .one
  | @times k e e' t t' nonzero other isProduct =>
    have const := files_constant number tidy k
    have both : ∀ x ∈ [.const k, e], (t.record (.const k) false).Ready x := by
      simp [const.holds.ready, (holds.later const.later).ready]
    have product := keeps isProduct const.tidy both
    refine ⟨product.tidy, const.later.trans product.later, by simpa using product.holds, fun kept s => ?_⟩
    obtain ⟨s', isProduct'⟩ := product.mirrored kept (s.record (.const k) false)
    exact ⟨s', .times nonzero other isProduct'⟩

variable (distinct : numbers.Nodup)
include distinct

theorem Combines.files {terms out : List Expr} (combines : Combines self terms t out t') (tidy : t.Tidy numbers marked)
    (holds : ∀ e ∈ terms, t.Holds e) :
    Files numbers marked number t t' (∀ e ∈ out, t'.Holds e) fun s s' =>
      Combines self (terms.map (Expr.renumber number)) s (out.map (Expr.renumber number)) s' := by
  obtain @⟨parts, lists, t, t₁, t₂, split, scale⟩ := combines
  have apart := split.files (P := fun t (p : Int64 × Expr) => t.Holds p.2) (fun later held => held.later later) tidy
    fun e member _ _ _ splits tidy later => splits.files keeps tidy ((holds e member).later later)
  have likes := forall_mem_mergeLike apart.holds
  have scaled := scale.files (P := fun t (out : List Expr) => ∀ e ∈ out, t.Holds e)
    (fun later held e member => (held e member).later later) apart.tidy
    fun p member _ _ _ scales tidy later => scales.files keeps tidy ((likes p member).later later)
  refine ⟨scaled.tidy, apart.later.trans scaled.later, fun e member => ?_, fun kept s => ?_⟩
  · obtain ⟨es, inLists, inside⟩ := List.mem_flatten.mp member
    exact scaled.holds es inLists e inside
  · obtain ⟨s₁, split'⟩ := apart.mirrored (kept.before scaled.later) s
    obtain ⟨s₂, scale'⟩ := scaled.mirrored kept s₁
    rw [← mergeLike_renumber distinct fun p member => (apart.holds p member).formed apart.tidy] at scale'
    exact ⟨s₂, List.map_flatten ▸ .intro split' scale'⟩

theorem files_finishSum {terms : List Expr} (tidy : t.Tidy numbers marked) (holds : ∀ e ∈ terms, t.Holds e)
    (leads : (finishSum k terms).Leads self t e t') :
    Files numbers marked number t t' (t'.Holds e) fun s s' =>
      (finishSum k (terms.map (Expr.renumber number))).Leads self s (e.renumber number) s' := by
  obtain ⟨out, t₁, combines, added⟩ := Plan.leads_finishSum.mp leads
  have combined := combines.files keeps distinct tidy holds
  have const : Files numbers marked number t₁ (if k = 0 then t₁ else t₁.record (.const k) false)
      (∀ e ∈ andConstant k out, (if k = 0 then t₁ else t₁.record (.const k) false).Holds e) fun s s' =>
        s' = if k = 0 then s else s.record (.const k) false := by
    unfold andConstant
    by_cases zero : k = 0
    · simp only [if_pos zero]
      exact files_refl combined.tidy combined.holds fun _ => rfl
    · simp only [if_neg zero]
      refine (files_constant number combined.tidy k).imp (fun isConst e member => ?_) fun _ _ same => same
      rcases List.mem_append.mp member with inOut | isLast
      · exact (combined.holds e inOut).later (t₁.extends_record _ _)
      · exact List.mem_singleton.mp isLast ▸ isConst
  have sum := files_addUp number const.tidy const.holds added
  refine ⟨sum.tidy, combined.later.trans (const.later.trans sum.later), sum.holds, fun kept s => ?_⟩
  obtain ⟨s₁, combines'⟩ := combined.mirrored (kept.before (const.later.trans sum.later)) s
  obtain ⟨s₂, added'⟩ := sum.mirrored kept (if k = 0 then s₁ else s₁.record (.const k) false)
  refine ⟨s₂, Plan.leads_finishSum.mpr ⟨_, s₁, combines', ?_⟩⟩
  have mirrors : andConstant k (out.map (Expr.renumber number)) = (andConstant k out).map (Expr.renumber number) := by
    unfold andConstant
    split <;> simp
  rwa [mirrors]

theorem files_addMerged {rest : List Expr} {merged : Expr} (tidy : t.Tidy numbers marked)
    (holds : ∀ e ∈ rest, t.Holds e) (isMerged : t.Holds merged) (leads : (addMerged k rest merged).Leads self t e t') :
    Files numbers marked number t t' (t'.Holds e) fun s s' =>
      (addMerged k (rest.map (Expr.renumber number)) (merged.renumber number)).Leads self s (e.renumber number) s' := by
  simp only [Plan.leads_addMerged, Expr.loop?_renumber] at leads ⊢
  rcases leads with ⟨recurs, finished⟩ | ⟨noLoop, isSum⟩
  · have all : ∀ e ∈ rest ++ [merged], t.Holds e := by
      simpa [or_imp, forall_and] using ⟨holds, isMerged⟩
    refine (files_finishSum keeps distinct tidy all finished).imp id fun s s' finished' => .inl ⟨recurs, ?_⟩
    simpa using finished'
  · have const := files_constant number tidy k
    have all : ∀ e ∈ rest ++ [merged, .const k], (t.record (.const k) false).Ready e := by
      intro e member
      simp only [List.mem_append, List.mem_cons, List.not_mem_nil, or_false] at member
      rcases member with isRest | rfl | rfl
      · exact ((holds e isRest).later const.later).ready
      · exact (isMerged.later const.later).ready
      · exact const.holds.ready
    have sum := keeps isSum const.tidy all
    refine ⟨sum.tidy, const.later.trans sum.later, sum.holds, fun kept s => ?_⟩
    obtain ⟨s', isSum'⟩ := sum.mirrored kept (s.record (.const k) false)
    exact ⟨s', .inr ⟨noLoop, by simpa using isSum'⟩⟩

theorem Sums.files {F : Forest} {terms : List Expr} (sums : Sums self F k terms t e t') (tidy : t.Tidy numbers marked)
    (holds : ∀ e ∈ terms, t.Holds e) :
    Files numbers marked number t t' (t'.Holds e) fun s s' =>
      Sums self F k (terms.map (Expr.renumber number)) s (e.renumber number) s' := by
  cases sums with
  | plain none isSum =>
    exact (files_finishSum keeps distinct tidy holds isSum).imp id fun _ _ =>
      .plain ((leader_renumber F terms).trans none)
  | @gathered l start step _ _ t₁ t₂ _ leading steady isStart isStep isSum =>
    have const := files_constant number tidy k
    have all : ∀ e ∈ terms, (t.record (.const k) false).Holds e := fun e member => (holds e member).later const.later
    have starts := keeps isStart const.tidy (forall_mem_gathered
      (fun e member => (Table.holds_startsOver const.tidy all e member).ready)
      (forall_mem_termsBeside fun e member => (all e member).ready) const.holds.ready)
    have later := const.later.trans starts.later
    have steps := keeps isStep starts.tidy fun e member => ((Table.holds_stepsOver tidy holds e member).later later).ready
    have marks : marked → noneWraps l terms t₂ = true := fun required =>
      Table.noneWraps_of_holds steps.tidy required (fun e member => (holds e member).later (later.trans steps.later)) l
    have sum := files_recurrence number steps.tidy (starts.holds.later steps.later) steps.holds marks isSum
      (noneWraps l (terms.map (Expr.renumber number)))
    refine ⟨sum.tidy, later.trans (steps.later.trans sum.later), sum.holds, fun kept s => ?_⟩
    obtain ⟨s₁, isStart'⟩ := starts.mirrored (kept.before (steps.later.trans sum.later)) (s.record (.const k) false)
    obtain ⟨s₂, isStep'⟩ := steps.mirrored (kept.before sum.later) s₁
    obtain ⟨s₃, isSum'⟩ := sum.mirrored kept s₂
    -- With other numbers the terms fall into the same groups, so the sum is in the same case.
    rw [List.map_append, List.map_append, ← startsOver_renumber, ← termsBeside_renumber] at isStart'
    rw [← stepsOver_renumber] at isStep'
    refine ⟨s₃, .gathered ((leader_renumber F terms).trans leading) ?_ isStart' isStep' isSum'⟩
    rw [termsBeside_renumber, all_isInvariant_renumber, steady]
  | @merged l start step merged _ _ t₁ t₂ t₃ _ leading varies isStart isStep isMerged isSum =>
    have starts := keeps isStart tidy fun e member => (Table.holds_startsOver tidy holds e member).ready
    have steps := keeps isStep starts.tidy fun e member =>
      ((Table.holds_stepsOver tidy holds e member).later starts.later).ready
    have later := starts.later.trans steps.later
    have marks : marked → noneWraps l terms t₂ = true := fun required =>
      Table.noneWraps_of_holds steps.tidy required (fun e member => (holds e member).later later) l
    have recurs := files_recurrence number steps.tidy (starts.holds.later steps.later) steps.holds marks isMerged
      (noneWraps l (terms.map (Expr.renumber number)))
    have all : ∀ e ∈ terms, t₃.Holds e := fun e member => (holds e member).later (later.trans recurs.later)
    have sum := files_addMerged keeps distinct recurs.tidy (forall_mem_termsBeside all) recurs.holds isSum
    refine ⟨sum.tidy, later.trans (recurs.later.trans sum.later), sum.holds, fun kept s => ?_⟩
    have kept₂ := kept.before (recurs.later.trans sum.later)
    obtain ⟨s₁, isStart'⟩ := starts.mirrored (kept₂.before steps.later) s
    obtain ⟨s₂, isStep'⟩ := steps.mirrored kept₂ s₁
    obtain ⟨s₃, isMerged'⟩ := recurs.mirrored (kept.before sum.later) s₂
    obtain ⟨s₄, isSum'⟩ := sum.mirrored kept s₃
    rw [← startsOver_renumber] at isStart'
    rw [← stepsOver_renumber] at isStep'
    rw [← termsBeside_renumber] at isSum'
    refine ⟨s₄, .merged ((leader_renumber F terms).trans leading) ?_ isStart' isStep' isMerged' isSum'⟩
    rw [termsBeside_renumber, all_isInvariant_renumber, varies]

omit distinct

theorem Distributes.files {factor : Expr} (distributes : Distributes self k factor t e t')
    (tidy : t.Tidy numbers marked) (holds : t.Holds factor) (noConst : ∀ n, factor ≠ .const n) :
    Files numbers marked number t t' (t'.Holds e) fun s s' =>
      Distributes self k (factor.renumber number) s (e.renumber number) s' := by
  have const := files_constant number tidy k
  have holds₁ := holds.later const.later
  have scaled : ∀ {t' : Table} {x : Expr}, (t.record (.const k) false).Extends t' → t'.Ready x →
      ∀ e ∈ [.const k, x], t'.Ready e := by
    intro t' x later ready
    simp [(const.holds.later later).ready, ready]
  cases distributes with
  | @recur l s x start step _ _ t₁ t₂ _ isStart isStep isProduct =>
    have isS := holds₁.operand const.tidy (p := s) (by simp [Expr.operands])
    have isX := holds₁.operand const.tidy (p := x) (by simp [Expr.operands])
    have starts := keeps isStart const.tidy (scaled (.refl _) isS.ready)
    have steps := keeps isStep starts.tidy (scaled starts.later (isX.later starts.later).ready)
    have later := starts.later.trans steps.later
    have product := files_recurrence number steps.tidy (starts.holds.later steps.later) steps.holds
      (fun required => (holds₁.later later).noWrap steps.tidy required rfl) isProduct
      (fun table => table.noWrap (.recur l (s.renumber number) (x.renumber number)))
    refine ⟨product.tidy, const.later.trans (later.trans product.later), product.holds, fun kept s => ?_⟩
    obtain ⟨s₁, isStart'⟩ := starts.mirrored (kept.before (steps.later.trans product.later)) (s.record (.const k) false)
    obtain ⟨s₂, isStep'⟩ := steps.mirrored (kept.before product.later) s₁
    obtain ⟨s₃, isProduct'⟩ := product.mirrored kept s₂
    exact ⟨s₃, .recur isStart' isStep' isProduct'⟩
  | @sum n terms out _ _ t₁ _ isOut isSum =>
    have each : ∀ x ∈ Expr.withConstant 0 n terms, (t.record (.const k) false).Ready x :=
      fun x member => (holds₁.operand const.tidy member).ready
    have outs := isOut.files (f := Expr.renumber number) (P := Table.Holds) (fun later held => held.later later) const.tidy
      fun x member _ _ _ isProduct tidy later => keeps isProduct tidy (scaled later ((each x member).later later))
    have sum := keeps isSum outs.tidy fun e member => (outs.holds e member).ready
    refine ⟨sum.tidy, const.later.trans (outs.later.trans sum.later), sum.holds, fun kept s => ?_⟩
    obtain ⟨s₁, isOut'⟩ := outs.mirrored (kept.before sum.later) (s.record (.const k) false)
    obtain ⟨s₂, isSum'⟩ := sum.mirrored kept s₁
    rw [Expr.renumber, Expr.renumberAll_eq]
    refine ⟨s₂, .sum ?_ isSum'⟩
    rwa [Expr.withConstant_renumber]
  | other noRecur noSum isProduct =>
    have product := files_multiplyOut number const.tidy (by simpa using ⟨holds₁, noConst⟩) isProduct
    refine ⟨product.tidy, const.later.trans product.later, product.holds, fun kept s => ?_⟩
    obtain ⟨s', isProduct'⟩ := product.mirrored kept (s.record (.const k) false)
    refine ⟨s', .other ?_ ?_ isProduct'⟩
    · cases factor with
      | recur l s x => exact absurd rfl (noRecur l s x)
      | _ => simp
    · cases factor with
      | sum n terms => exact absurd rfl (noSum n terms)
      | _ => simp

theorem Multiplies.files {factors : List Expr} (multiplies : Multiplies self k factors t e t')
    (tidy : t.Tidy numbers marked) (holds : ∀ e ∈ factors, t.Holds e ∧ ∀ n, e ≠ .const n) :
    Files numbers marked number t t' (t'.Holds e) fun s s' =>
      Multiplies self k (factors.map (Expr.renumber number)) s (e.renumber number) s' := by
  cases multiplies with
  | zero zero => exact (files_constant number tidy 0).imp id fun s s' same => same ▸ .zero zero
  | const nonzero => exact (files_constant number tidy k).imp id fun s s' same => same ▸ .const nonzero
  | same one => exact files_refl tidy (holds e (by simp)).1 fun _ => .same one
  | @single x _ _ _ nonzero other isProduct =>
    obtain ⟨isFactor, noConst⟩ := holds x (by simp)
    exact (isProduct.files keeps tidy isFactor noConst).imp id fun _ _ => .single nonzero other
  | several nonzero isProduct => exact (files_multiplyOut number tidy holds isProduct).imp id fun _ _ => .several nonzero

end

/-- Sums and products of recorded expressions are recorded, and so are those with other numbers. -/
theorem keepsFiled_canonical {numbers : List Value} (distinct : numbers.Nodup) (marked : Prop) (number : Value → Nat)
    (F : Forest) (depth : Nat) : KeepsFiled numbers marked number (canonical F depth) := by
  induction depth with
  | zero =>
    intro op ops t e t' made
    cases made
  | succ depth ih =>
    intro op ops t e t' made tidy ready
    cases op with
    | sum =>
      have files := (Plan.leads_sumPlan.mp made).files ih distinct tidy (Table.holds_summandsOf tidy ready)
      refine files.imp id fun s s' sums => Plan.leads_sumPlan.mpr ?_
      rwa [Expr.summandsOf_renumber]
    | product =>
      have files := (Plan.leads_productPlan.mp made).files ih tidy (Table.holds_factorsOf tidy ready)
      refine files.imp id fun s s' multiplies => Plan.leads_productPlan.mpr ?_
      rwa [Expr.factorsOf_renumber]

theorem keepsFiled_together {numbers : List Value} (distinct : numbers.Nodup) (marked : Prop) (number : Value → Nat)
    (F : Forest) : KeepsFiled numbers marked number (together F) := by
  intro op ops t e t' made tidy ready
  refine (keepsFiled_canonical distinct marked number F (enough ops) made tidy ready).imp id fun s s' made' => ?_
  have sizes : enough (ops.map (Expr.renumber number)) = enough ops := by
    rw [enough, enough, ← Expr.renumberAll_eq, Expr.sizes_renumberAll]
  rwa [together, sizes]

end LoopConflict.Evolution
