import LoopConflict.Proofs.Evolution.Runs
import LoopConflict.Proofs.Evolution.Stability
import LoopConflict.Proofs.Evolution.Tally

/-!
What expressions mean: words, where values that are not looked into have words and loops have iteration
numbers. Sums and products in canonical form mean what their operands do together, and are made of the
loops and values of the operands (`Query.means_combine`). This holds of every way in which terms are put
together (`Sums.means`, `Multiplies.means`).
-/
namespace LoopConflict.Evolution

open Loop (Forest LoopId)
open Program (Value)

/-- Words for values and iteration numbers of loops. -/
structure Assignment where
  values : Value → Int64
  rounds : LoopId → Int64

namespace Expr

mutual

/-- The word that an expression stands for. -/
def value (a : Assignment) : Expr → Int64
  | .const n => n
  | .unknown _ v => a.values v
  | .recur l s t => s.value a + t.value a * a.rounds l
  | .sum k ts => k + total a ts
  | .product k ts => k * totalProduct a ts

/-- The sum of the words of several expressions. -/
def total (a : Assignment) : List Expr → Int64
  | [] => 0
  | e :: es => e.value a + total a es

/-- The product of the words of several expressions. -/
def totalProduct (a : Assignment) : List Expr → Int64
  | [] => 1
  | e :: es => e.value a * totalProduct a es

end

mutual

/-- The expression is made of recurrences over some loops and of some unknown values. -/
def Over (L : LoopId → Prop) (V : Value → Prop) : Expr → Prop
  | .const _ => True
  | .unknown _ v => V v
  | .recur l s t => L l ∧ s.Over L V ∧ t.Over L V
  | .sum _ ts => AllOver L V ts
  | .product _ ts => AllOver L V ts

def AllOver (L : LoopId → Prop) (V : Value → Prop) : List Expr → Prop
  | [] => True
  | e :: es => e.Over L V ∧ AllOver L V es

end

variable {a : Assignment} {L : LoopId → Prop} {V : Value → Prop}

theorem allOver_iff {es : List Expr} : AllOver L V es ↔ ∀ e ∈ es, e.Over L V := by
  induction es with
  | nil => simp [AllOver]
  | cons e es ih => simp [AllOver, ih]

theorem allOver_append {es es' : List Expr} : AllOver L V (es ++ es') ↔ AllOver L V es ∧ AllOver L V es' := by
  simp only [allOver_iff, List.mem_append, or_imp, forall_and]

theorem eq_const_of_const? {e : Expr} {n : Int64} (constant : e.const? = some n) : e = .const n := by
  cases e with
  | const m => rw [Option.some.inj constant]
  | _ => cases constant

mutual

/-- An expression that is made of one kind of parts and of another is made of parts of both kinds. -/
theorem Over.and {L' : LoopId → Prop} {V' : Value → Prop} : ∀ {e : Expr}, e.Over L V → e.Over L' V' →
    e.Over (fun l => L l ∧ L' l) fun v => V v ∧ V' v
  | .const _, _, _ => trivial
  | .unknown _ _, first, second => ⟨first, second⟩
  | .recur _ _ _, first, second => ⟨⟨first.1, second.1⟩, first.2.1.and second.2.1, first.2.2.and second.2.2⟩
  | .sum _ _, first, second => AllOver.and first second
  | .product _ _, first, second => AllOver.and first second

theorem AllOver.and {L' : LoopId → Prop} {V' : Value → Prop} : ∀ {es : List Expr}, AllOver L V es → AllOver L' V' es →
    AllOver (fun l => L l ∧ L' l) (fun v => V v ∧ V' v) es
  | [], _, _ => trivial
  | _ :: _, first, second => ⟨first.1.and second.1, AllOver.and first.2 second.2⟩

end

mutual

/-- The parts decide what an expression stands for. -/
theorem value_congr {a' : Assignment} (loops : ∀ l, L l → a.rounds l = a'.rounds l)
    (values : ∀ v, V v → a.values v = a'.values v) : ∀ {e : Expr}, e.Over L V → e.value a = e.value a'
  | .const _, _ => rfl
  | .unknown _ v, uses => values v uses
  | .recur l _ _, uses => by
    rw [value, value, loops l uses.1, value_congr loops values uses.2.1, value_congr loops values uses.2.2]
  | .sum _ _, uses => by rw [value, value, (totals_congr loops values uses).1]
  | .product _ _, uses => by rw [value, value, (totals_congr loops values uses).2]

theorem totals_congr {a' : Assignment} (loops : ∀ l, L l → a.rounds l = a'.rounds l)
    (values : ∀ v, V v → a.values v = a'.values v) :
    ∀ {es : List Expr}, AllOver L V es → total a es = total a' es ∧ totalProduct a es = totalProduct a' es
  | [], _ => ⟨rfl, rfl⟩
  | _ :: _, uses => by
    have first := value_congr loops values uses.1
    have rest := totals_congr loops values uses.2
    simp only [total, totalProduct, first, rest, and_self]

end

mutual

theorem over_true : ∀ e : Expr, e.Over (fun _ => True) fun _ => True
  | .const _ => trivial
  | .unknown _ _ => trivial
  | .recur _ s t => ⟨trivial, over_true s, over_true t⟩
  | .sum _ ts => allOver_true ts
  | .product _ ts => allOver_true ts

theorem allOver_true : ∀ es : List Expr, AllOver (fun _ => True) (fun _ => True) es
  | [] => trivial
  | e :: es => ⟨over_true e, allOver_true es⟩

end

theorem total_append (es es' : List Expr) : total a (es ++ es') = total a es + total a es' := by
  induction es with
  | nil => simp [total]
  | cons e es ih => simp only [List.cons_append, total, ih, Int64.add_assoc]

theorem totalProduct_append (es es' : List Expr) :
    totalProduct a (es ++ es') = totalProduct a es * totalProduct a es' := by
  induction es with
  | nil => simp [totalProduct]
  | cons e es ih => simp only [List.cons_append, totalProduct, ih, Int64.mul_assoc]

theorem total_perm {es es' : List Expr} (perm : es.Perm es') : total a es = total a es' := by
  induction perm with
  | nil => rfl
  | cons e _ ih => simp only [total, ih]
  | swap e e' es => simp only [total]; grind
  | trans _ _ first second => exact first.trans second

theorem totalProduct_perm {es es' : List Expr} (perm : es.Perm es') : totalProduct a es = totalProduct a es' := by
  induction perm with
  | nil => rfl
  | cons e _ ih => simp only [totalProduct, ih]
  | swap e e' es => simp only [totalProduct]; grind
  | trans _ _ first second => exact first.trans second

/-! ### Terms in order -/

theorem place_perm (e : Expr) (es : List Expr) : (place e es).Perm (e :: es) := by
  induction es with
  | nil => exact .refl _
  | cons x xs ih =>
    rw [place]
    split
    · exact .refl _
    · exact (ih.cons x).trans (.swap e x xs)

theorem ordered_perm (es : List Expr) : (ordered es).Perm es := by
  induction es with
  | nil => exact .nil
  | cons e es ih => exact (place_perm e (ordered es)).trans (ih.cons e)

theorem allOver_perm {es es' : List Expr} (perm : es.Perm es') : AllOver L V es ↔ AllOver L V es' := by
  simp only [allOver_iff, perm.mem_iff]

theorem value_sumOf (terms : List Expr) : (sumOf terms).value a = total a terms := by
  rw [← total_perm (ordered_perm terms), sumOf]
  split
  · rename_i first
    rw [first]
    split
    · simp [value]
    · simp [value, total]
  · simp [value]

theorem over_sumOf {terms : List Expr} (uses : AllOver L V terms) : (sumOf terms).Over L V := by
  rw [← allOver_perm (ordered_perm terms)] at uses
  rw [sumOf]
  split
  · rename_i c rest first
    rw [first] at uses
    split
    · exact uses
    · exact uses.2
  · exact uses

/-! ### Opened sums and products -/

mutual

theorem value_summands : ∀ e : Expr, e.summands.1 + total a e.summands.2 = e.value a
  | .const n => by simp [summands, total, value]
  | .sum k ts => by
    have inner := value_summandsOf ts
    simp only [summands, value]
    grind
  | .unknown _ _ => by simp [summands, total]
  | .recur _ _ _ => by simp [summands, total]
  | .product _ _ => by simp [summands, total]

theorem value_summandsOf : ∀ es : List Expr, (summandsOf es).1 + total a (summandsOf es).2 = total a es
  | [] => by simp [summandsOf, total]
  | e :: es => by
    have first := value_summands e
    have rest := value_summandsOf es
    simp only [summandsOf, total, total_append]
    grind

end

mutual

theorem over_summands : ∀ {e : Expr}, e.Over L V → AllOver L V e.summands.2
  | .const _, _ => trivial
  | .sum _ _, uses => over_summandsOf uses
  | .unknown _ _, uses => ⟨uses, trivial⟩
  | .recur _ _ _, uses => ⟨uses, trivial⟩
  | .product _ _, uses => ⟨uses, trivial⟩

theorem over_summandsOf : ∀ {es : List Expr}, AllOver L V es → AllOver L V (summandsOf es).2
  | [], _ => trivial
  | _ :: _, uses => allOver_append.mpr ⟨over_summands uses.1, over_summandsOf uses.2⟩

end

mutual

theorem value_factors : ∀ e : Expr, e.factors.1 * totalProduct a e.factors.2 = e.value a
  | .const n => by simp [factors, totalProduct, value]
  | .product k ts => by
    have inner := value_factorsOf ts
    simp only [factors, value]
    grind
  | .unknown _ _ => by simp [factors, totalProduct]
  | .recur _ _ _ => by simp [factors, totalProduct]
  | .sum _ _ => by simp [factors, totalProduct]

theorem value_factorsOf : ∀ es : List Expr, (factorsOf es).1 * totalProduct a (factorsOf es).2 = totalProduct a es
  | [] => by simp [factorsOf, totalProduct]
  | e :: es => by
    have first := value_factors e
    have rest := value_factorsOf es
    simp only [factorsOf, totalProduct, totalProduct_append]
    grind

end

mutual

theorem over_factors : ∀ {e : Expr}, e.Over L V → AllOver L V e.factors.2
  | .const _, _ => trivial
  | .product _ _, uses => over_factorsOf uses
  | .unknown _ _, uses => ⟨uses, trivial⟩
  | .recur _ _ _, uses => ⟨uses, trivial⟩
  | .sum _ _, uses => ⟨uses, trivial⟩

theorem over_factorsOf : ∀ {es : List Expr}, AllOver L V es → AllOver L V (factorsOf es).2
  | [], _ => trivial
  | _ :: _, uses => allOver_append.mpr ⟨over_factors uses.1, over_factorsOf uses.2⟩

end

end Expr

open LoopConflict.Evolution.Expr (total totalProduct AllOver allOver_iff allOver_append total_append)

/-- What expressions put together mean. -/
def Combination.value (a : Assignment) : Combination → List Expr → Int64
  | .sum, ops => total a ops
  | .product, ops => totalProduct a ops

theorem Combination.value_plain (a : Assignment) (op : Combination) (ops : List Expr) :
    (op.plain ops).value a = op.value a ops := by
  cases op <;> simp [plain, Combination.value, Expr.value]

/-! ### Like terms -/

/-- The sum of terms with their constant factors. -/
def weighted (a : Assignment) : List (Int64 × Expr) → Int64
  | [] => 0
  | t :: ts => t.1 * t.2.value a + weighted a ts

theorem weighted_addLike (a : Assignment) (coeff : Int64) (base : Expr) (terms : List (Int64 × Expr)) :
    weighted a (addLike coeff base terms) = weighted a terms + coeff * base.value a := by
  induction terms with
  | nil => simp [addLike, weighted]
  | cons t terms ih =>
    rw [addLike]
    split
    · rename_i same
      simp only [weighted, same]
      grind
    · simp only [weighted, ih]
      grind

theorem weighted_mergeLike (a : Assignment) (terms : List (Int64 × Expr)) :
    weighted a (mergeLike terms) = weighted a terms := by
  have fold : ∀ terms acc : List (Int64 × Expr),
      weighted a (terms.foldl (fun acc t => addLike t.1 t.2 acc) acc) = weighted a acc + weighted a terms := by
    intro terms
    induction terms with
    | nil => simp [weighted]
    | cons first rest ih =>
      intro acc
      rw [List.foldl_cons, ih, weighted_addLike, weighted]
      grind
  simpa [mergeLike, weighted] using fold terms []

/-! ### Parts of recurrences -/

/-- A fold that keeps what it has or takes the next item ends with an item or with what it had. -/
theorem mem_of_foldl_choice {α : Type} {choose : Option α → α → Option α}
    (chooses : ∀ best x, choose best x = some x ∨ choose best x = best) {items : List α} {best : Option α} {x : α}
    (found : items.foldl choose best = some x) : x ∈ items ∨ best = some x := by
  induction items generalizing best with
  | nil => exact .inr found
  | cons first rest ih =>
    rcases ih found with later | here
    · exact .inl (by simp [later])
    · rcases chooses best first with taken | kept
      · rw [taken] at here
        exact .inl (by simp [Option.some.inj here])
      · exact .inr (kept ▸ here)

theorem leader_mem {F : Forest} {terms : List Expr} {l : LoopId} (found : leader F terms = some l) :
    ∃ s t, Expr.recur l s t ∈ terms := by
  have member : l ∈ terms.filterMap Expr.loop? := by
    refine (mem_of_foldl_choice (fun best l => ?_) found).resolve_right (by simp)
    cases best with
    | none => exact .inl rfl
    | some b =>
      dsimp only
      split
      · exact .inl rfl
      · exact .inr rfl
  obtain ⟨e, here, isLoop⟩ := List.mem_filterMap.mp member
  cases e with
  | recur l' s t =>
    cases isLoop
    exact ⟨s, t, here⟩
  | _ => cases isLoop

/-- The terms are the recurrences over a loop and the rest. -/
theorem total_parts (a : Assignment) (l : LoopId) (terms : List Expr) :
    total a terms = total a (termsBeside l terms) +
      (total a (startsOver l terms) + total a (stepsOver l terms) * a.rounds l) := by
  have opened : ∀ parts : List (Expr × Expr), total a (parts.map fun p => .recur l p.1 p.2) =
      total a (parts.map (·.1)) + total a (parts.map (·.2)) * a.rounds l := by
    intro parts
    induction parts with
    | nil => simp [total]
    | cons p parts ih =>
      simp only [List.map_cons, total, Expr.value, ih]
      grind
  rw [← Expr.total_perm (perm_parts l terms), total_append, opened, startsOver, stepsOver]

theorem over_parts {L : LoopId → Prop} {V : Value → Prop} {l : LoopId} {terms : List Expr} (uses : AllOver L V terms) :
    AllOver L V (startsOver l terms) ∧ AllOver L V (stepsOver l terms) ∧ AllOver L V (termsBeside l terms) := by
  simp only [allOver_iff] at uses ⊢
  refine ⟨forall_mem_startsOver fun s t here => ?_, forall_mem_stepsOver fun s t here => ?_, forall_mem_termsBeside uses⟩
  · exact (uses _ here).2.1
  · exact (uses _ here).2.2

/-! ### Making expressions -/

/-- The expression stands for a word and is made of the given parts. -/
structure Means (a : Assignment) (L : LoopId → Prop) (V : Value → Prop) (n : Int64) (e : Expr) : Prop where
  value : e.value a = n
  uses : e.Over L V

section

variable {a : Assignment} {L : LoopId → Prop} {V : Value → Prop}

theorem Means.of_eq {m n : Int64} {e : Expr} (means : Means a L V m e) (same : m = n) : Means a L V n e :=
  same ▸ means

theorem means_recurred {l : LoopId} {start step : Expr} {m n : Int64} (isStart : Means a L V m start)
    (isStep : Means a L V n step) (loop : L l) : Means a L V (m + n * a.rounds l) (recurred l start step) := by
  unfold recurred
  split
  · rename_i zero
    have none : n = 0 := by
      rw [← isStep.value]
      cases step with
      | const k => simpa [Expr.isZero, Expr.const?, Expr.value] using zero
      | _ => simp [Expr.isZero, Expr.const?] at zero
    refine ⟨?_, isStart.uses⟩
    rw [isStart.value, none]
    simp
  · refine ⟨?_, loop, isStart.uses, isStep.uses⟩
    rw [Expr.value, isStart.value, isStep.value]

theorem total_andConstant (a : Assignment) (k : Int64) (terms : List Expr) :
    total a (andConstant k terms) = k + total a terms := by
  unfold andConstant
  split
  · rename_i zero
    simp [zero]
  · rw [total_append]
    simp [total, Expr.value, Int64.add_comm]

theorem allOver_andConstant (k : Int64) {terms : List Expr} (uses : AllOver L V terms) :
    AllOver L V (andConstant k terms) := by
  unfold andConstant
  split
  · exact uses
  · exact allOver_append.mpr ⟨uses, trivial, trivial⟩

theorem means_addedUp {terms : List Expr} (uses : AllOver L V terms) : Means a L V (total a terms) (addedUp terms) := by
  match terms, uses with
  | [], _ => exact ⟨rfl, trivial⟩
  | [e], uses => exact ⟨by simp [addedUp, total], uses.1⟩
  | e :: e' :: more, uses => exact ⟨Expr.value_sumOf _, Expr.over_sumOf uses⟩

theorem total_withConstant (a : Assignment) (n : Int64) (terms : List Expr) :
    total a (Expr.withConstant 0 n terms) = n + total a terms := by
  unfold Expr.withConstant
  split
  · rename_i zero
    simp [zero]
  · rfl

theorem allOver_withConstant {unit n : Int64} {terms : List Expr} (uses : AllOver L V terms) :
    AllOver L V (Expr.withConstant unit n terms) := by
  unfold Expr.withConstant
  split
  · exact uses
  · exact ⟨trivial, uses⟩

/-- What is put together means what the operands do together. -/
abbrev KeepsMeaning (a : Assignment) (L : LoopId → Prop) (V : Value → Prop) (self : Callee) : Prop :=
  Fulfils (AllOver L V) (fun op ops => Means a L V (op.value a ops)) self

variable {self : Callee} (keeps : KeepsMeaning a L V self) {F : Forest} {k : Int64} {ops terms factors : List Expr}
  {e e' : Expr} {t t' : Table}
include keeps

theorem Splits.means {p : Int64 × Expr} (splits : Splits self e t p t') (uses : e.Over L V) :
    p.1 * p.2.value a = e.value a ∧ p.2.Over L V := by
  cases splits with
  | whole _ => exact ⟨by simp, uses⟩
  | product _ isBase =>
    have means := keeps isBase uses
    exact ⟨by rw [means.value, Expr.value, Combination.value], means.uses⟩

theorem Scales.means {p : Int64 × Expr} {out : List Expr} (scales : Scales self p t out t') (uses : p.2.Over L V) :
    total a out = p.1 * p.2.value a ∧ AllOver L V out := by
  cases scales with
  | zero => exact ⟨by simp [total], trivial⟩
  | one => exact ⟨by simp [total], uses, trivial⟩
  | times _ _ isProduct =>
    have means := keeps isProduct ⟨trivial, uses, trivial⟩
    refine ⟨?_, means.uses, trivial⟩
    simp [total, means.value, Combination.value, totalProduct, Expr.value]

theorem Chain.means_split {parts : List (Int64 × Expr)} (split : Chain (Splits self) terms t parts t')
    (uses : AllOver L V terms) : weighted a parts = total a terms ∧ ∀ p ∈ parts, p.2.Over L V := by
  induction split with
  | nil => exact ⟨rfl, by simp⟩
  | cons first _ ih =>
    obtain ⟨value, overFirst⟩ := first.means keeps uses.1
    obtain ⟨values, overRest⟩ := ih uses.2
    exact ⟨by rw [weighted, total, value, values], List.forall_mem_cons.mpr ⟨overFirst, overRest⟩⟩

theorem Chain.means_scale {parts : List (Int64 × Expr)} {lists : List (List Expr)}
    (scale : Chain (Scales self) parts t lists t') (uses : ∀ p ∈ parts, p.2.Over L V) :
    total a lists.flatten = weighted a parts ∧ AllOver L V lists.flatten := by
  induction scale with
  | nil => exact ⟨rfl, trivial⟩
  | cons first _ ih =>
    obtain ⟨overFirst, overRest⟩ := List.forall_mem_cons.mp uses
    obtain ⟨value, overOut⟩ := first.means keeps overFirst
    obtain ⟨values, overOuts⟩ := ih overRest
    rw [List.flatten_cons, total_append, allOver_append, value, values]
    exact ⟨rfl, overOut, overOuts⟩

theorem Combines.means {out : List Expr} (combines : Combines self terms t out t') (uses : AllOver L V terms) :
    total a out = total a terms ∧ AllOver L V out := by
  obtain ⟨split, scale⟩ := combines
  obtain ⟨whole, overParts⟩ := split.means_split keeps uses
  obtain ⟨value, overOut⟩ := scale.means_scale keeps (forall_mem_mergeLike overParts)
  exact ⟨by rw [value, weighted_mergeLike, whole], overOut⟩

theorem means_finishSum (leads : (finishSum k terms).Leads self t e t') (uses : AllOver L V terms) :
    Means a L V (k + total a terms) e := by
  obtain ⟨out, t₁, combines, isSum⟩ := Plan.leads_finishSum.mp leads
  obtain ⟨value, overOut⟩ := combines.means keeps uses
  rw [(Plan.leads_addUp.mp isSum).1]
  refine (means_addedUp (allOver_andConstant k overOut)).of_eq ?_
  rw [total_andConstant, value]

theorem means_addMerged {rest : List Expr} {merged : Expr} {n : Int64}
    (leads : (addMerged k rest merged).Leads self t e t') (uses : AllOver L V rest) (isMerged : Means a L V n merged) :
    Means a L V (k + (total a rest + n)) e := by
  rcases Plan.leads_addMerged.mp leads with ⟨_, isSum⟩ | ⟨_, isSum⟩
  · refine (means_finishSum keeps isSum (allOver_append.mpr ⟨uses, isMerged.uses, trivial⟩)).of_eq ?_
    simp [total_append, total, isMerged.value]
  · refine (keeps isSum (allOver_append.mpr ⟨uses, isMerged.uses, trivial, trivial⟩)).of_eq ?_
    simp only [Combination.value, total_append, total, isMerged.value, Expr.value]
    grind

theorem Sums.means (sums : Sums self F k terms t e t') (uses : AllOver L V terms) :
    Means a L V (k + total a terms) e := by
  have loop : ∀ {l}, leader F terms = some l → L l := by
    intro l leading
    obtain ⟨s, x, member⟩ := leader_mem leading
    exact (allOver_iff.mp uses _ member).1
  cases sums with
  | plain _ isSum => exact means_finishSum keeps isSum uses
  | @gathered l start step _ _ _ _ _ leading _ isStart isStep isSum =>
    obtain ⟨overStarts, overSteps, overRest⟩ := over_parts (l := l) uses
    have isStart := keeps isStart (allOver_append.mpr ⟨allOver_append.mpr ⟨overStarts, overRest⟩, trivial, trivial⟩)
    have isStep := keeps isStep overSteps
    rw [(Plan.leads_recurrence.mp isSum).1]
    refine (means_recurred isStart isStep (loop leading)).of_eq ?_
    simp only [Combination.value, total_append, total, Expr.value, total_parts a l terms]
    grind
  | @merged l start step merged _ _ _ _ _ _ leading _ isStart isStep isMerged isSum =>
    obtain ⟨overStarts, overSteps, overRest⟩ := over_parts (l := l) uses
    have isStart := keeps isStart overStarts
    have isStep := keeps isStep overSteps
    obtain rfl := (Plan.leads_recurrence.mp isMerged).1
    refine (means_addMerged keeps isSum overRest (means_recurred isStart isStep (loop leading))).of_eq ?_
    simp only [Combination.value, total_parts a l terms]

theorem Distributes.means (distributes : Distributes self k e t e' t') (uses : e.Over L V) :
    Means a L V (k * e.value a) e' := by
  have scale : ∀ {x t y t'}, self .product [.const k, x] t = some (y, t') → x.Over L V →
      Means a L V (k * x.value a) y := by
    intro x t y t' isProduct overX
    refine (keeps isProduct ⟨trivial, overX, trivial⟩).of_eq ?_
    simp [Combination.value, totalProduct, Expr.value]
  cases distributes with
  | recur isStart isStep isProduct =>
    obtain ⟨loop, overStart, overStep⟩ := uses
    rw [(Plan.leads_recurrence.mp isProduct).1]
    refine (means_recurred (scale isStart overStart) (scale isStep overStep) loop).of_eq ?_
    rw [Expr.value]
    grind
  | sum isOut isSum =>
    have distributed : ∀ {xs t out t'}, Chain (fun x t e t' => self .product [.const k, x] t = some (e, t')) xs t out t' →
        AllOver L V xs → total a out = k * total a xs ∧ AllOver L V out := by
      intro xs t out t' chain overAll
      induction chain with
      | nil => exact ⟨by simp [total], trivial⟩
      | cons first _ ih =>
        have here := scale first overAll.1
        obtain ⟨value, overOut⟩ := ih overAll.2
        refine ⟨?_, here.uses, overOut⟩
        rw [total, total, here.value, value]
        grind
    obtain ⟨value, overOut⟩ := distributed isOut (allOver_withConstant uses)
    refine (keeps isSum overOut).of_eq ?_
    rw [Combination.value, value, total_withConstant, Expr.value]
  | other _ _ isProduct =>
    rw [(Plan.leads_multiplyOut.mp isProduct).1]
    exact ⟨by simp [Expr.value, Expr.ordered, Expr.place, totalProduct], uses, trivial⟩

theorem Multiplies.means (multiplies : Multiplies self k factors t e t') (uses : AllOver L V factors) :
    Means a L V (k * totalProduct a factors) e := by
  cases multiplies with
  | zero zero => exact ⟨by simp [Expr.value, zero], trivial⟩
  | const _ => exact ⟨by simp [Expr.value, totalProduct], trivial⟩
  | same one => exact ⟨by simp [one, totalProduct], uses.1⟩
  | single _ _ isProduct => exact (isProduct.means keeps uses.1).of_eq (by simp [totalProduct])
  | several _ isProduct =>
    rw [(Plan.leads_multiplyOut.mp isProduct).1]
    refine ⟨?_, (Expr.allOver_perm (Expr.ordered_perm _)).mpr uses⟩
    rw [Expr.value, Expr.totalProduct_perm (Expr.ordered_perm _)]

omit keeps in
theorem keepsMeaning_canonical (F : Forest) (depth : Nat) : KeepsMeaning a L V (canonical F depth) := by
  refine fulfils_canonical (fun self keeps op ops t e t' leads uses => ?_) depth
  cases op with
  | sum =>
    have sums := Plan.leads_sumPlan.mp leads
    exact (sums.means keeps (Expr.over_summandsOf uses)).of_eq (Expr.value_summandsOf ops)
  | product =>
    have multiplies := Plan.leads_productPlan.mp leads
    exact (multiplies.means keeps (Expr.over_factorsOf uses)).of_eq (Expr.value_factorsOf ops)

end

/-! ### Questions that make expressions -/

theorem means_build {plain : Expr} {p : Plan Expr} {P : Expr → Prop} {c : Context} (holds : P plain)
    (leads : ∀ e t, p.Leads (together c.forest) c.table e t → P e) : P (build plain p c).1 := by
  unfold build
  split
  · rename_i made
    exact leads _ _ made
  · exact holds

namespace Query

variable {a : Assignment} {L : LoopId → Prop} {V : Value → Prop} (c : Context)

theorem means_const (n : Int64) : Means a L V n (const n c).1 := by
  rw [const_fst]
  exact ⟨rfl, trivial⟩

theorem means_recur {l : LoopId} {start step : Expr} {m n : Int64} (isStart : Means a L V m start)
    (isStep : Means a L V n step) (loop : L l) (noWrap : Bool) :
    Means a L V (m + n * a.rounds l) (recur l start step noWrap c).1 := by
  refine means_build ⟨?_, loop, isStart.uses, isStep.uses⟩ fun e t leads => ?_
  · rw [Expr.value, isStart.value, isStep.value]
  · rw [(Plan.leads_recurrence.mp leads).1]
    exact means_recurred isStart isStep loop

/-- Putting expressions together in canonical form keeps their meaning. -/
theorem means_combine (op : Combination) {ops : List Expr} (uses : AllOver L V ops) :
    Means a L V (op.value a ops) (combine op ops c).1 := by
  refine means_build ⟨op.value_plain a ops, ?_⟩ fun e t leads => ?_
  · cases op <;> exact uses
  · exact fulfils_together (keepsMeaning_canonical c.forest) (Plan.leads_request.mp leads) uses

theorem value_const (a : Assignment) (n : Int64) : (const n c).1.value a = n :=
  (means_const (L := fun _ => True) (V := fun _ => True) c n).value

theorem value_combine (a : Assignment) (op : Combination) (ops : List Expr) :
    (combine op ops c).1.value a = op.value a ops :=
  (means_combine c op (Expr.allOver_true ops)).value

theorem value_recur (a : Assignment) (l : LoopId) (start step : Expr) (noWrap : Bool) :
    (recur l start step noWrap c).1.value a = start.value a + step.value a * a.rounds l :=
  (means_recur c ⟨rfl, Expr.over_true start⟩ ⟨rfl, Expr.over_true step⟩ trivial noWrap).value

theorem means_sum {x y : Expr} {m n : Int64} (isX : Means a L V m x) (isY : Means a L V n y) :
    Means a L V (m + n) (sum [x, y] c).1 := by
  have uses : AllOver L V [x, y] := ⟨isX.uses, isY.uses, trivial⟩
  refine (means_combine c .sum uses).of_eq ?_
  simp [Combination.value, total, isX.value, isY.value]

theorem means_product {x y : Expr} {m n : Int64} (isX : Means a L V m x) (isY : Means a L V n y) :
    Means a L V (m * n) (product [x, y] c).1 := by
  have uses : AllOver L V [x, y] := ⟨isX.uses, isY.uses, trivial⟩
  refine (means_combine c .product uses).of_eq ?_
  simp [Combination.value, totalProduct, isX.value, isY.value]

theorem means_negate {e : Expr} {n : Int64} (isE : Means a L V n e) : Means a L V (-n) (negate e c).1 := by
  refine (means_product (const (-1) c).2 (means_const c (-1)) isE).of_eq ?_
  grind

theorem means_difference {x y : Expr} {m n : Int64} (isX : Means a L V m x) (isY : Means a L V n y) :
    Means a L V (m - n) (difference x y c).1 := by
  refine (means_sum (negate y c).2 isX (means_negate c isY)).of_eq ?_
  grind

end Query

end LoopConflict.Evolution
