import LoopConflict.Proofs.Evolution.Depth
import LoopConflict.Proofs.Evolution.Memory

/-!
Sums of recurrences over loops inside of each other. The recurrence over the deepest loop takes the other terms of a
sum into its start (`yields_sum_recur`). So recurrences with constant starts and steps add up to a nest, from the
innermost loop outwards, in whatever order they are given (`yields_sum_lines`), and a constant that is added to a
nest ends in the start of its outermost recurrence (`yields_sum_shift`).
-/
namespace LoopConflict.Evolution

open Loop (Forest LoopId)

/-! ### What is put together -/

/-- Putting the expressions together gives the one expression, however deep calls may go. -/
def Yields (F : Forest) (op : Combination) (ops : List Expr) (e : Expr) : Prop :=
  ∀ ⦃depth table e' table'⦄, canonical F depth op ops table = some (e', table') → e' = e

variable {F : Forest} {ops terms : List Expr} {l : LoopId} {start step : Expr} {k m s t : Int64}

theorem Upholds.bind_eq {σ α β : Type} {I : σ → Prop} {q : StateM σ α} {g : α → StateM σ β} {x : α} {P : β → Prop}
    (answer : Upholds I q (· = x)) (rest : Upholds I (g x) P) : Upholds I (q >>= g) P :=
  answer.bind fun _ same => same ▸ rest

theorem upholds_combine {op : Combination} {e : Expr} (yields : Yields F op ops e) :
    Upholds (·.forest = F) (Query.combine op ops) (· = e) := by
  intro c forest
  refine ⟨((Query.quiet_combine op ops).forest c).trans forest, ?_⟩
  obtain ⟨e', table, found, same⟩ := Query.exists_combine op ops c
  rw [same]
  rw [forest] at found
  exact yields found

theorem upholds_const_eq (n : Int64) : Upholds (·.forest = F) (Query.const n) (· = .const n) :=
  fun c forest => ⟨((Query.quiet_const n).forest c).trans forest, Query.const_fst n c⟩

theorem isZero_const (nonzero : t ≠ 0) : (Expr.const t).isZero = false := by
  simpa [Expr.isZero, Expr.const?] using nonzero

theorem recurred_of_moves (l : LoopId) (start : Expr) (moves : step.isZero = false) :
    recurred l start step = .recur l start step :=
  if_neg (by simp [moves])

theorem yields_of_sums {e : Expr} (opened : Expr.summandsOf ops = (k, terms))
    (each : ∀ depth table e' table', Sums (canonical F depth) F k terms table e' table' → e' = e) :
    Yields F .sum ops e := by
  intro depth table e' table' made
  cases depth with
  | zero => cases made
  | succ depth =>
    have sums := Plan.leads_sumPlan.mp made
    rw [opened] at sums
    exact each depth table e' table' sums

theorem yields_of_multiplies {factors : List Expr} {e : Expr} (opened : Expr.factorsOf ops = (k, factors))
    (each : ∀ depth table e' table', Multiplies (canonical F depth) k factors table e' table' → e' = e) :
    Yields F .product ops e := by
  intro depth table e' table' made
  cases depth with
  | zero => cases made
  | succ depth =>
    have multiplies := Plan.leads_productPlan.mp made
    rw [opened] at multiplies
    exact each depth table e' table' multiplies

theorem addedUp_const (k : Int64) : addedUp (andConstant k []) = .const k := by
  by_cases zero : k = 0 <;> simp [andConstant, addedUp, zero]

/-- A sum of constants. -/
theorem yields_sum_const (opened : Expr.summandsOf ops = (k, [])) : Yields F .sum ops (.const k) := by
  refine yields_of_sums opened fun depth table e' table' sums => ?_
  cases sums with
  | plain _ isSum =>
    obtain ⟨out, table₁, combines, added⟩ := Plan.leads_finishSum.mp isSum
    obtain rfl : out = [] := by
      obtain ⟨split, scale⟩ := combines
      cases split
      cases scale
      rfl
    rw [(Plan.leads_addUp.mp added).1, addedUp_const]
  | gathered leading _ _ _ _ => cases leading
  | merged leading _ _ _ _ _ => cases leading

/-- A product of constants. -/
theorem yields_product_const (opened : Expr.factorsOf ops = (k, [])) : Yields F .product ops (.const k) := by
  refine yields_of_multiplies opened fun depth table e' table' multiplies => ?_
  cases multiplies with
  | zero zero => rw [zero]
  | const _ => rfl

/-- A constant multiple of a recurrence with constant start and step. -/
theorem yields_product_recur (opened : Expr.factorsOf ops = (k, [.recur l (.const s) (.const t)]))
    (moves : k * t ≠ 0) : Yields F .product ops (.recur l (.const (k * s)) (.const (k * t))) := by
  have scaled : ∀ n, Yields F .product [.const k, .const n] (.const (k * n)) :=
    fun n => yields_product_const (by simp [Expr.factorsOf, Expr.factors])
  refine yields_of_multiplies opened fun depth table e' table' multiplies => ?_
  cases multiplies with
  | zero zero =>
    rw [zero] at moves
    simp at moves
  | same one => simp [one]
  | single _ _ isProduct =>
    cases isProduct with
    | recur isStart isStep isProduct =>
      rw [(Plan.leads_recurrence.mp isProduct).1, scaled s isStart, scaled t isStep]
      exact recurred_of_moves l _ (isZero_const moves)
    | other noRecur _ _ => exact absurd rfl (noRecur _ _ _)

/-! ### The deepest loop -/

/-- A fold that never gets smaller ends with something that is as large as all items. -/
theorem exists_foldl_largest {α : Type} {choose : Option α → α → Option α} (size : α → Nat)
    (grows : ∀ best x, ∃ y, choose best x = some y ∧ size x ≤ size y ∧ ∀ b, best = some b → size b ≤ size y)
    (items : List α) (best : Option α) (given : items ≠ [] ∨ best.isSome = true) :
    ∃ y, items.foldl choose best = some y ∧ (∀ x ∈ items, size x ≤ size y) ∧ ∀ b, best = some b → size b ≤ size y := by
  induction items generalizing best with
  | nil =>
    obtain ⟨b, here⟩ := Option.isSome_iff_exists.mp (given.resolve_left fun more => more rfl)
    exact ⟨b, here, by simp, fun b' same => by simp [Option.some.inj (here.symm.trans same)]⟩
  | cons first rest ih =>
    obtain ⟨next, chosen, asFirst, asBest⟩ := grows best first
    obtain ⟨y, found, asRest, asNext⟩ := ih (choose best first) (.inr (by simp [chosen]))
    have above := asNext next chosen
    refine ⟨y, found, fun x member => ?_, fun b isBest => Nat.le_trans (asBest b isBest) above⟩
    rcases List.mem_cons.mp member with rfl | later
    · exact Nat.le_trans asFirst above
    · exact asRest x later

theorem exists_leader_deepest (member : .recur l start step ∈ terms) :
    ∃ m, leader F terms = some m ∧ ∀ l s t, .recur l s t ∈ terms → F.depth l ≤ F.depth m := by
  have listed : ∀ {l s t}, .recur l s t ∈ terms → l ∈ terms.filterMap Expr.loop? :=
    fun here => List.mem_filterMap.mpr ⟨_, here, rfl⟩
  refine (exists_foldl_largest F.depth (fun best l => ?_) _ none (.inl (List.ne_nil_of_mem (listed member)))).imp
    fun m ⟨found, deepest, _⟩ => ⟨found, fun l s t here => deepest l (listed here)⟩
  cases best with
  | none => exact ⟨l, rfl, Nat.le_refl _, by simp⟩
  | some b =>
    dsimp only
    split
    · rename_i less
      refine ⟨l, rfl, Nat.le_refl _, fun b' same => ?_⟩
      cases same
      exact Nat.le_of_lt less
    · exact ⟨b, rfl, by omega, by simp⟩

/-- A loop that is deeper than all others leads. -/
theorem leader_eq_some (member : .recur l start step ∈ terms)
    (deepest : ∀ m s t, .recur m s t ∈ terms → m ≠ l → F.depth m < F.depth l) : leader F terms = some l := by
  obtain ⟨m, found, as⟩ := exists_leader_deepest (F := F) member
  obtain ⟨s, t, here⟩ := leader_mem found
  by_cases same : m = l
  · rw [found, same]
  · have := as l _ _ member
    have := deepest m s t here same
    omega

/-- The parts over a loop of terms of which only one is a recurrence over it. -/
theorem partsOver_of_perm {rest : List Expr} (perm : terms.Perm (.recur l start step :: rest))
    (away : ∀ x ∈ rest, partsOver l x = none) :
    startsOver l terms = [start] ∧ stepsOver l terms = [step] ∧ (termsBeside l terms).Perm rest := by
  have here : partsOver l (.recur l start step) = some (start, step) := if_pos rfl
  have picked := perm.filterMap (partsOver l)
  rw [List.filterMap_cons_some here, List.filterMap_eq_nil_iff.mpr away, List.perm_singleton] at picked
  refine ⟨by simp [startsOver, picked], by simp [stepsOver, picked], ?_⟩
  have kept := perm.filter fun x => (partsOver l x).isNone
  rw [List.filter_cons_of_neg (by simp [here])] at kept
  exact kept.trans (.of_eq (List.filter_eq_self.mpr fun x member => by simp [away x member]))

/-- The only recurrence over the deepest loop takes all other terms into its start. -/
theorem yields_sum_recur {rest : List Expr} {e e' : Expr} (opened : Expr.summandsOf ops = (k, terms))
    (perm : terms.Perm (.recur l e e' :: rest)) (deepest : ∀ m s t, .recur m s t ∈ rest → F.depth m < F.depth l)
    (invariant : ∀ x ∈ rest, x.isInvariant F l = true)
    (starts : ∀ rest', rest'.Perm rest → Yields F .sum (e :: rest' ++ [.const k]) start)
    (steps : Yields F .sum [e'] step) (moves : step.isZero = false) : Yields F .sum ops (.recur l start step) := by
  have away : ∀ x ∈ rest, partsOver l x = none := by
    intro x member
    cases x with
    | recur m s t =>
      refine if_neg fun same => ?_
      have := deepest m s t member
      rw [same] at this
      omega
    | _ => rfl
  obtain ⟨isStarts, isSteps, others⟩ := partsOver_of_perm perm away
  have leading : leader F terms = some l := by
    refine leader_eq_some (perm.mem_iff.mpr List.mem_cons_self) fun m s t member other => ?_
    rcases List.mem_cons.mp (perm.mem_iff.mp member) with same | later
    · exact absurd (Expr.recur.inj same).1 other
    · exact deepest m s t later
  have fixed : (termsBeside l terms).all (Expr.isInvariant F l) = true :=
    List.all_eq_true.mpr fun x member => invariant x (others.mem_iff.mp member)
  refine yields_of_sums opened fun depth table e' table' sums => ?_
  cases sums with
  | plain none _ => cases leading.symm.trans none
  | gathered found _ isStart isStep isSum =>
    obtain rfl := Option.some.inj (leading.symm.trans found)
    rw [isStarts] at isStart
    rw [isSteps] at isStep
    rw [(Plan.leads_recurrence.mp isSum).1, starts _ others isStart, steps isStep]
    exact recurred_of_moves l start moves
  | merged found varies _ _ _ _ =>
    obtain rfl := Option.some.inj (leading.symm.trans found)
    cases fixed.symm.trans varies

/-! ### Nests -/

/-- A recurrence with constant start and step. -/
structure Line where
  loop : LoopId
  start : Int64
  step : Int64
  moves : step ≠ 0

def Line.expr (r : Line) : Expr :=
  .recur r.loop (.const r.start) (.const r.step)

/-- The recurrences over loops inside of each other, from the innermost one outwards. -/
def nest (k : Int64) : List Line → Expr
  | [] => .const k
  | r :: outer => .recur r.loop (nest k outer) (.const r.step)

/-- The starts and a constant added up. -/
def base (k : Int64) (lines : List Line) : Int64 :=
  lines.foldr (fun r n => r.start + n) k

/-- From each loop to those that follow it gets less deep. -/
def Outwards (F : Forest) (lines : List Line) : Prop :=
  lines.Pairwise fun inner outer =>
    F.depth outer.loop < F.depth inner.loop ∧ F.containsLoop inner.loop outer.loop = false

theorem base_add (n k : Int64) (lines : List Line) : base (n + k) lines = n + base k lines := by
  induction lines with
  | nil => rfl
  | cons r outer ih =>
    simp only [base, List.foldr_cons] at ih ⊢
    rw [ih]
    grind

theorem summandsOf_lines {es : List Expr} {lines : List Line} (only : es ⊆ lines.map Line.expr) :
    Expr.summandsOf es = (0, es) := by
  induction es with
  | nil => rfl
  | cons e es ih =>
    obtain ⟨first, rest⟩ := List.cons_subset.mp only
    obtain ⟨r, _, rfl⟩ := List.mem_map.mp first
    simp [Expr.summandsOf, Expr.summands, Line.expr, ih rest]

/-- The sum of recurrences over loops inside of each other is a nest, in whatever order they are added. -/
theorem yields_sum_lines {lines : List Line} (outwards : Outwards F lines) (opened : Expr.summandsOf ops = (k, terms))
    (perm : terms.Perm (lines.map Line.expr)) : Yields F .sum ops (nest (base k lines) lines) := by
  induction lines generalizing ops terms k with
  | nil =>
    rw [List.map_nil, List.perm_nil] at perm
    exact yields_sum_const (perm ▸ opened)
  | cons r outer ih =>
    obtain ⟨around, outwards⟩ := List.pairwise_cons.mp outwards
    refine yields_sum_recur opened perm (fun m s t member => ?_) (fun e member => ?_) (fun rest order => ?_)
      (yields_sum_const (by simp [Expr.summandsOf, Expr.summands])) (isZero_const r.moves)
    · obtain ⟨o, inOuter, same⟩ := List.mem_map.mp member
      rw [← (Expr.recur.inj same).1]
      exact (around o inOuter).1
    · obtain ⟨o, inOuter, rfl⟩ := List.mem_map.mp member
      simp [Line.expr, Expr.isInvariant, (around o inOuter).2]
    · have next : Expr.summandsOf (.const r.start :: rest ++ [.const k]) = (r.start + k, rest) := by
        rw [Expr.summandsOf_append_const]
        simp [Expr.summandsOf, Expr.summands, summandsOf_lines order.subset]
      have inner := ih outwards next order
      rwa [base_add] at inner

/-- A constant that is added to a nest goes to the start of its outermost recurrence. -/
theorem yields_sum_shift (k n : Int64) (lines : List Line) :
    Yields F .sum [nest k lines, .const n] (nest (k + n) lines) := by
  induction lines with
  | nil => exact yields_sum_const (by simp [nest, Expr.summandsOf, Expr.summands])
  | cons r outer ih =>
    have opened : Expr.summandsOf [nest k (r :: outer), .const n] = (n, [nest k (r :: outer)]) := by
      simp [nest, Expr.summandsOf, Expr.summands]
    refine yields_sum_recur opened (.refl _) (by simp) (by simp) (fun rest order => ?_)
      (yields_sum_const (by simp [Expr.summandsOf, Expr.summands])) (isZero_const r.moves)
    rw [List.perm_nil.mp order]
    exact ih

theorem upholds_difference_nest (k n : Int64) (lines : List Line) :
    Upholds (·.forest = F) (Query.difference (nest k lines) (.const n)) (· = nest (k - n) lines) := by
  have negated : Upholds (·.forest = F) (Query.negate (.const n)) (· = .const (-n)) := by
    refine (upholds_const_eq (-1)).bind_eq (upholds_combine (yields_product_const ?_))
    simp [Expr.factorsOf, Expr.factors, Int64.neg_mul]
  rw [Int64.sub_eq_add_neg]
  exact negated.bind_eq (upholds_combine (yields_sum_shift k (-n) lines))

theorem eq_const_of_nest_eq {n : Int64} {lines : List Line} (same : nest k lines = .const n) : k = n ∧ lines = [] := by
  cases lines with
  | nil => exact ⟨Expr.const.inj same, rfl⟩
  | cons r outer => cases same

end LoopConflict.Evolution
