import LoopConflict.Linear.Equation
import LoopConflict.Proofs.Word
import Mathlib.Algebra.BigOperators.Group.List.Basic
import Mathlib.Algebra.BigOperators.Ring.List
import Mathlib.Data.List.Induction
import Mathlib.Tactic.Ring

/-!
What constraints and equations mean over the integers, and that bringing a constraint to one side
keeps its meaning. An equation that comes out holds exactly where the constraint does
(`holds_of_normalize`), no integers satisfy a constraint that is refused (`not_holds_of_normalize`),
and the variables of the equation are those whose coefficients do not cancel (`mem_keys_of_normalize`). The greatest
common divisor of the coefficients divides the constant, although both are computed with words that wrap around
(`mod_foldl_gcd_eq_zero_iff`).
-/
namespace LoopConflict.Linear

/-- The value of a form where every name has a value. -/
def Form.value (v : String → Int) (e : Form) : Int :=
  (e.terms.map fun t => t.coeff.toInt * v t.var).sum + e.const.toInt

/-- Both sides of a constraint have the same value, over the integers. -/
def Constraint.Holds (v : String → Int) (c : Constraint) : Prop :=
  c.lhs.value v = c.rhs.value v

/-- The sum of the coefficients of a name. -/
def Form.coeffOf (name : String) (e : Form) : Int :=
  ((e.terms.filter (·.var == name)).map (·.coeff.toInt)).sum

/-- What is left of a name's coefficients once everything is on the left. -/
def Constraint.net (name : String) (c : Constraint) : Int :=
  c.lhs.coeffOf name - c.rhs.coeffOf name

/-- The value of a sum of terms where the variable at each position has a value. -/
def total (x : Nat → Int) (terms : List (Nat × Int64)) : Int :=
  (terms.map fun t => t.2.toInt * x t.1).sum

/-- The equation holds over the integers. -/
def Equation.Holds (x : Nat → Int) (e : Equation) : Prop :=
  total x e.terms = e.rhs.toInt

/-- The names of an index have the values of their positions. -/
def Reads (index : String → Option Nat) (x : Nat → Int) (v : String → Int) : Prop :=
  ∀ name i, index name = some i → v name = x i

/-- Every variable of the equation occurs once, and not with coefficient zero. -/
structure Equation.Reduced (e : Equation) : Prop where
  distinct : (e.terms.map (·.1)).Nodup
  nonzero : ∀ t ∈ e.terms, t.2 ≠ 0

@[simp] theorem total_nil (x : Nat → Int) : total x [] = 0 := rfl

@[simp] theorem total_cons (x : Nat → Int) (t : Nat × Int64) (rest : List (Nat × Int64)) :
    total x (t :: rest) = t.2.toInt * x t.1 + total x rest := by
  simp [total]

theorem total_congr {x y : Nat → Int} {terms : List (Nat × Int64)} (same : ∀ t ∈ terms, x t.1 = y t.1) :
    total x terms = total y terms := by
  unfold total
  congr 1
  exact List.map_congr_left fun t member => by rw [same t member]

/-- Terms with coefficient zero add nothing. -/
theorem total_filter_nonzero (x : Nat → Int) (terms : List (Nat × Int64)) :
    total x (terms.filter (·.2 ≠ 0)) = total x terms := by
  induction terms with
  | nil => rfl
  | cons t rest ih =>
    by_cases zero : t.2 = 0
    · rw [List.filter_cons_of_neg (by simpa using zero), ih]
      simp [zero]
    · rw [List.filter_cons_of_pos (by simpa using zero), total_cons, total_cons, ih]

theorem dvd_total {d : Int} {terms : List (Nat × Int64)} (divides : ∀ t ∈ terms, d ∣ t.2.toInt)
    (x : Nat → Int) : d ∣ total x terms := by
  induction terms with
  | nil => simp
  | cons t rest ih =>
    rw [total_cons]
    exact dvd_add (Dvd.dvd.mul_right (divides t (by simp)) _)
      (ih fun u member => divides u (List.mem_cons_of_mem _ member))

/-- The assignment that is one at a position and zero elsewhere. -/
def indicator {α : Type} [DecidableEq α] (i : α) : α → Int :=
  fun j => if j = i then 1 else 0

@[simp] theorem indicator_self {α : Type} [DecidableEq α] (i : α) : indicator i i = 1 := by
  simp [indicator]

theorem indicator_of_ne {α : Type} [DecidableEq α] {i j : α} (different : j ≠ i) : indicator i j = 0 := by
  simp [indicator, different]

/-- Reading a sum at an indicator gives the coefficient of a variable that occurs at most once. -/
theorem total_indicator_ne_zero_iff {terms : List (Nat × Int64)} (distinct : (terms.map (·.1)).Nodup)
    (nonzero : ∀ t ∈ terms, t.2 ≠ 0) (i : Nat) :
    total (indicator i) terms ≠ 0 ↔ i ∈ terms.map (·.1) := by
  induction terms with
  | nil => simp
  | cons t rest ih =>
    have rest_iff := ih (List.nodup_cons.mp distinct).2 fun u member => nonzero u (List.mem_cons_of_mem _ member)
    have fresh : t.1 ∉ rest.map (·.1) := (List.nodup_cons.mp distinct).1
    rw [total_cons, List.map_cons, List.mem_cons]
    by_cases here : i = t.1
    · subst here
      have others : total (indicator t.1) rest = 0 := by
        by_contra occurs
        exact fresh (rest_iff.mp occurs)
      have coefficient : t.2.toInt ≠ 0 := by
        rw [← Int64.toInt_zero, Ne, Int64.toInt_inj]
        exact nonzero t (by simp)
      simp [others, coefficient]
    · rw [indicator_of_ne (Ne.symm here)]
      simp [here, rest_iff]

/-! ### Collecting terms -/

theorem total_addCoeff? {i : Nat} {a : Int64} {acc out : List (Nat × Int64)}
    (added : addCoeff? i a acc = some out) (x : Nat → Int) :
    total x out = total x acc + a.toInt * x i := by
  induction acc generalizing out with
  | nil =>
    obtain ⟨v, sum, rfl⟩ := Option.map_eq_some_iff.mp added
    have exact := Word.add?_eq_some_iff.mp sum
    simp [exact]
  | cons t rest ih =>
    obtain ⟨j, b⟩ := t
    rw [addCoeff?] at added
    split at added
    · rename_i same
      obtain ⟨v, sum, rfl⟩ := Option.map_eq_some_iff.mp added
      have exact := Word.add?_eq_some_iff.mp sum
      simp only [total_cons, exact, same]
      ring
    · obtain ⟨tail, later, rfl⟩ := Option.map_eq_some_iff.mp added
      simp only [total_cons, ih later]
      ring

theorem keys_addCoeff? {i : Nat} {a : Int64} {acc out : List (Nat × Int64)}
    (added : addCoeff? i a acc = some out) :
    (∀ j, j ∈ out.map (·.1) ↔ j = i ∨ j ∈ acc.map (·.1)) ∧
      ((acc.map (·.1)).Nodup → (out.map (·.1)).Nodup) := by
  induction acc generalizing out with
  | nil =>
    obtain ⟨v, _, rfl⟩ := Option.map_eq_some_iff.mp added
    simp
  | cons t rest ih =>
    obtain ⟨j, b⟩ := t
    rw [addCoeff?] at added
    split at added
    · rename_i same
      obtain ⟨v, _, rfl⟩ := Option.map_eq_some_iff.mp added
      subst same
      simp
    · rename_i different
      obtain ⟨tail, later, rfl⟩ := Option.map_eq_some_iff.mp added
      obtain ⟨keys, distinct⟩ := ih later
      simp only [List.map_cons, List.mem_cons, List.nodup_cons, keys]
      refine ⟨fun k => by tauto, fun ⟨fresh, restDistinct⟩ => ⟨?_, distinct restDistinct⟩⟩
      rintro (rfl | member)
      · exact different rfl
      · exact fresh member

theorem total_addTerms? {index : String → Option Nat} {sign : Int64} {terms : List Term}
    {acc out : List (Nat × Int64)} (added : addTerms? index sign terms acc = some out)
    {x : Nat → Int} {v : String → Int} (reads : Reads index x v) :
    total x out = total x acc + sign.toInt * (terms.map fun t => t.coeff.toInt * v t.var).sum := by
  induction terms generalizing acc with
  | nil =>
    cases added
    simp
  | cons t rest ih =>
    simp only [addTerms?, Option.bind_eq_bind, Option.bind_eq_some_iff] at added
    obtain ⟨i, known, a, product, acc', step, added⟩ := added
    have exact := Word.mul?_eq_some_iff.mp product
    rw [ih added, total_addCoeff? step, exact, List.map_cons, List.sum_cons, reads _ _ known]
    ring

theorem nodup_addTerms? {index : String → Option Nat} {sign : Int64} {terms : List Term}
    {acc out : List (Nat × Int64)} (added : addTerms? index sign terms acc = some out)
    (distinct : (acc.map (·.1)).Nodup) : (out.map (·.1)).Nodup := by
  induction terms generalizing acc with
  | nil =>
    cases added
    exact distinct
  | cons t rest ih =>
    simp only [addTerms?, Option.bind_eq_bind, Option.bind_eq_some_iff] at added
    obtain ⟨i, _, a, _, acc', step, added⟩ := added
    exact ih added ((keys_addCoeff? step).2 distinct)

/-- The collected terms and the constant differ as the two sides of the constraint do. -/
theorem total_collect? {index : String → Option Nat} {c : Constraint} {acc : List (Nat × Int64)} {rhs : Int64}
    (collected : collect? index c = some (acc, rhs)) {x : Nat → Int} {v : String → Int}
    (reads : Reads index x v) : total x acc - rhs.toInt = c.lhs.value v - c.rhs.value v := by
  simp only [collect?, Option.bind_eq_bind, Option.bind_eq_some_iff] at collected
  obtain ⟨left, leftAdded, both, bothAdded, difference, subtracted, final⟩ := collected
  cases final
  have minusOne : (-1 : Int64).toInt = -1 := rfl
  rw [total_addTerms? bothAdded reads, total_addTerms? leftAdded reads, Word.toInt_of_sub? subtracted,
    Int64.toInt_one, minusOne]
  simp only [Form.value, total_nil]
  ring

theorem nodup_collect? {index : String → Option Nat} {c : Constraint} {acc : List (Nat × Int64)} {rhs : Int64}
    (collected : collect? index c = some (acc, rhs)) : (acc.map (·.1)).Nodup := by
  simp only [collect?, Option.bind_eq_bind, Option.bind_eq_some_iff] at collected
  obtain ⟨left, leftAdded, both, bothAdded, difference, _, final⟩ := collected
  cases final
  exact nodup_addTerms? bothAdded (nodup_addTerms? leftAdded List.nodup_nil)

theorem exists_name_of_addTerms? {index : String → Option Nat} {sign : Int64} {terms : List Term}
    {acc out : List (Nat × Int64)} (added : addTerms? index sign terms acc = some out) {i : Nat}
    (member : i ∈ out.map (·.1)) : i ∈ acc.map (·.1) ∨ ∃ name, index name = some i := by
  induction terms generalizing acc with
  | nil =>
    cases added
    exact .inl member
  | cons t rest ih =>
    simp only [addTerms?, Option.bind_eq_bind, Option.bind_eq_some_iff] at added
    obtain ⟨j, known, a, _, acc', step, added⟩ := added
    rcases ih added with before | named
    · rcases ((keys_addCoeff? step).1 i).mp before with rfl | earlier
      · exact .inr ⟨t.var, known⟩
      · exact .inl earlier
    · exact .inr named

theorem exists_name_of_collect? {index : String → Option Nat} {c : Constraint} {acc : List (Nat × Int64)}
    {rhs : Int64} (collected : collect? index c = some (acc, rhs)) {i : Nat} (member : i ∈ acc.map (·.1)) :
    ∃ name, index name = some i := by
  simp only [collect?, Option.bind_eq_bind, Option.bind_eq_some_iff] at collected
  obtain ⟨left, leftAdded, both, bothAdded, difference, _, final⟩ := collected
  cases final
  rcases exists_name_of_addTerms? bothAdded member with before | named
  · rcases exists_name_of_addTerms? leftAdded before with none_yet | named
    · simp at none_yet
    · exact named
  · exact named

/-! ### The divisibility test -/

/-- The greatest common divisor of the coefficients, 0 if there are none. -/
def divisor (terms : List (Nat × Int64)) : Nat :=
  (terms.map (·.2.toInt.natAbs)).foldr Nat.gcd 0

theorem natAbs_foldl_gcd (terms : List (Nat × Int64)) (g : Int64) :
    (terms.foldl (fun g t => Word.gcd g t.2) g).toInt.natAbs = Nat.gcd g.toInt.natAbs (divisor terms) := by
  induction terms generalizing g with
  | nil => exact (Nat.gcd_zero_right _).symm
  | cons t rest ih =>
    rw [List.foldl_cons, ih, Word.natAbs_gcd, Nat.gcd_assoc]
    rfl

theorem divisor_dvd {terms : List (Nat × Int64)} {t : Nat × Int64} (member : t ∈ terms) :
    divisor terms ∣ t.2.toInt.natAbs := by
  induction terms with
  | nil => cases member
  | cons first rest ih =>
    rcases List.mem_cons.mp member with rfl | later
    · exact Nat.gcd_dvd_left _ _
    · exact (Nat.gcd_dvd_right _ _).trans (ih later)

/-- The test on the constant computes with words, but it is the test for their common divisor. -/
theorem mod_foldl_gcd_eq_zero_iff (terms : List (Nat × Int64)) (rhs : Int64) :
    rhs % terms.foldl (fun g t => Word.gcd g t.2) 0 = 0 ↔ divisor terms ∣ rhs.toInt.natAbs := by
  rw [Word.mod_eq_zero_iff_dvd, ← Int.natAbs_dvd_natAbs, natAbs_foldl_gcd, Int64.toInt_zero, Int.natAbs_zero,
    Nat.gcd_zero_left]

/-- If the common divisor does not divide the constant, no integers give it. -/
theorem total_ne_of_not_dvd {terms : List (Nat × Int64)} {rhs : Int64} (indivisible : ¬ divisor terms ∣ rhs.toInt.natAbs)
    (x : Nat → Int) : total x terms ≠ rhs.toInt := by
  intro same
  rw [← same, ← Int.natCast_dvd] at indivisible
  exact indivisible (dvd_total (fun t member => Int.natCast_dvd.mpr (divisor_dvd member)) x)

/-! ### Normalization -/

/-- The equation is the constraint in normal form. -/
structure Equation.Normal (e : Equation) : Prop extends e.Reduced where
  notLeast : ∀ t ∈ e.terms, t.2 ≠ Int64.minValue
  divides : divisor e.terms ∣ e.rhs.toInt.natAbs

/-- All that normalization can do: an equation comes from the collected terms, whose coefficients are
    not zero, and a refused constraint fails the test on its constant. -/
theorem normalize_cases (index : String → Option Nat) (c : Constraint) :
    normalize index c = .unknown ∨
      ∃ acc rhs, collect? index c = some (acc, rhs) ∧
        (normalize index c = .equation ⟨acc.filter (·.2 ≠ 0), rhs⟩ ∧
            (∀ t ∈ acc.filter (·.2 ≠ 0), t.2 ≠ Int64.minValue) ∧ divisor (acc.filter (·.2 ≠ 0)) ∣ rhs.toInt.natAbs ∨
          normalize index c = .infeasible ∧ ¬ divisor (acc.filter (·.2 ≠ 0)) ∣ rhs.toInt.natAbs) := by
  unfold normalize
  cases collected : collect? index c with
  | none => exact .inl rfl
  | some pair =>
    obtain ⟨acc, rhs⟩ := pair
    dsimp only
    split
    · exact .inl rfl
    · rename_i noLeast
      have notLeast : ∀ t ∈ acc.filter (·.2 ≠ 0), t.2 ≠ Int64.minValue := by
        intro t member least
        exact noLeast (List.any_eq_true.mpr ⟨t, member, decide_eq_true least⟩)
      refine .inr ⟨acc, rhs, rfl, ?_⟩
      split
      · rename_i empty
        have noneLeft : acc.filter (·.2 ≠ 0) = [] := List.isEmpty_iff.mp empty
        -- Without terms the common divisor is 0, which only divides itself.
        have zero_iff : divisor [] ∣ rhs.toInt.natAbs ↔ rhs = 0 := by
          rw [← Int64.toInt_inj, Int64.toInt_zero, ← Int.natAbs_eq_zero]
          exact Nat.zero_dvd
        rw [noneLeft, zero_iff]
        split
        · rename_i zero
          exact .inl ⟨rfl, by simp, zero⟩
        · rename_i nonzero
          exact .inr ⟨rfl, nonzero⟩
      · rw [← mod_foldl_gcd_eq_zero_iff]
        split
        · rename_i divides
          exact .inl ⟨rfl, notLeast, divides⟩
        · rename_i indivisible
          exact .inr ⟨rfl, indivisible⟩

theorem normal_of_normalize {index : String → Option Nat} {c : Constraint} {e : Equation}
    (normal : normalize index c = .equation e) : e.Normal := by
  rcases normalize_cases index c with unknown | ⟨acc, rhs, collected, ⟨same, notLeast, divides⟩ | ⟨refused, _⟩⟩
  · simp [unknown] at normal
  · rw [same] at normal
    cases normal
    refine ⟨⟨?_, fun t member => by simpa using (List.mem_filter.mp member).2⟩, notLeast, divides⟩
    exact (List.filter_sublist.map Prod.fst).nodup (nodup_collect? collected)
  · simp [refused] at normal

theorem reduced_of_normalize {index : String → Option Nat} {c : Constraint} {e : Equation}
    (normal : normalize index c = .equation e) : e.Reduced :=
  (normal_of_normalize normal).toReduced

/-- The equation of a constraint holds exactly where the constraint does. -/
theorem holds_of_normalize {index : String → Option Nat} {c : Constraint} {e : Equation}
    (normal : normalize index c = .equation e) {x : Nat → Int} {v : String → Int} (reads : Reads index x v) :
    e.Holds x ↔ c.Holds v := by
  rcases normalize_cases index c with unknown | ⟨acc, rhs, collected, ⟨same, _⟩ | ⟨refused, _⟩⟩
  · simp [unknown] at normal
  · rw [same] at normal
    cases normal
    have difference := total_collect? collected reads
    simp only [Equation.Holds, Constraint.Holds, total_filter_nonzero]
    omega
  · simp [refused] at normal

/-- An equation without variables is the true one. -/
theorem rhs_of_normalize {index : String → Option Nat} {c : Constraint} {e : Equation}
    (normal : normalize index c = .equation e) (empty : e.terms = []) : e.rhs = 0 := by
  have divides := (normal_of_normalize normal).divides
  rw [empty] at divides
  have zero : e.rhs.toInt = 0 := Int.natAbs_eq_zero.mp (Nat.zero_dvd.mp divides)
  exact Int64.toInt_inj.mp (zero.trans Int64.toInt_zero.symm)

/-- Every variable of an equation has a name. -/
theorem exists_name_of_normalize {index : String → Option Nat} {c : Constraint} {e : Equation}
    (normal : normalize index c = .equation e) {i : Nat} (member : i ∈ e.terms.map (·.1)) :
    ∃ name, index name = some i := by
  rcases normalize_cases index c with unknown | ⟨acc, rhs, collected, ⟨same, _⟩ | ⟨refused, _⟩⟩
  · simp [unknown] at normal
  · rw [same] at normal
    cases normal
    exact exists_name_of_collect? collected ((List.filter_sublist.map Prod.fst).subset member)
  · simp [refused] at normal

/-- No integers satisfy a constraint that is refused. -/
theorem not_holds_of_normalize {index : String → Option Nat} {c : Constraint}
    (refused : normalize index c = .infeasible) {x : Nat → Int} {v : String → Int} (reads : Reads index x v) :
    ¬ c.Holds v := by
  rcases normalize_cases index c with unknown | ⟨acc, rhs, collected, ⟨same, _⟩ | ⟨_, indivisible⟩⟩
  · simp [unknown] at refused
  · simp [same] at refused
  · intro holds
    have difference := total_collect? collected reads
    have different := total_ne_of_not_dvd indivisible x
    rw [total_filter_nonzero] at different
    simp only [Constraint.Holds] at holds
    omega

theorem Form.value_indicator (name : String) (e : Form) :
    e.value (indicator name) = e.coeffOf name + e.const.toInt := by
  unfold Form.value Form.coeffOf
  congr 1
  induction e.terms with
  | nil => rfl
  | cons t rest ih =>
    by_cases here : t.var = name
    · subst here
      simp [ih]
    · simp [indicator_of_ne here, here, ih]

theorem Form.value_zero (e : Form) : e.value (fun _ => 0) = e.const.toInt := by
  simp [Form.value]

/-- A variable is left in the equation of a constraint iff its coefficients do not cancel. -/
theorem mem_keys_of_normalize {index : String → Option Nat} {c : Constraint} {e : Equation}
    (normal : normalize index c = .equation e) {name : String} {i : Nat}
    (only : ∀ n, index n = some i ↔ n = name) : i ∈ e.terms.map (·.1) ↔ c.net name ≠ 0 := by
  have reduced := reduced_of_normalize normal
  rw [← total_indicator_ne_zero_iff reduced.distinct reduced.nonzero]
  rcases normalize_cases index c with unknown | ⟨acc, rhs, collected, ⟨same, _⟩ | ⟨refused, _⟩⟩
  · simp [unknown] at normal
  · rw [same] at normal
    cases normal
    have readsIndicator : Reads index (indicator i) (indicator name) := by
      intro n j known
      by_cases here : n = name
      · have at_i := (only n).mpr here
        rw [known] at at_i
        rw [here, Option.some.inj at_i, indicator_self, indicator_self]
      · have elsewhere : j ≠ i := fun at_i => here ((only n).mp (at_i ▸ known))
        rw [indicator_of_ne here, indicator_of_ne elsewhere]
    have readsZero : Reads index (fun _ => 0) (fun _ => 0) := fun _ _ _ => rfl
    have coefficients := total_collect? collected readsIndicator
    have constants := total_collect? collected readsZero
    have noTerms : total (fun _ => 0) acc = 0 := by simp [total]
    simp only [Form.value_indicator] at coefficients
    rw [noTerms, Form.value_zero, Form.value_zero] at constants
    rw [total_filter_nonzero, Constraint.net]
    omega
  · simp [refused] at normal

/-! ### Names -/

theorem lastIndex?_eq_some_iff {names : List String} {name : String} {i : Nat} :
    lastIndex? names name = some i ↔ names[i]? = some name ∧ ∀ j, i < j → names[j]? ≠ some name := by
  induction names using List.reverseRecOn with
  | nil => simp [lastIndex?]
  | append_singleton names last ih =>
    have split : lastIndex? (names ++ [last]) name =
        if last = name then some names.length else lastIndex? names name := by
      by_cases here : last = name <;> simp [lastIndex?, List.zipIdx_append, here]
    rw [split]
    by_cases here : last = name
    · rw [if_pos here]
      constructor
      · intro same
        cases same
        refine ⟨by simp [here], fun j later => ?_⟩
        rw [List.getElem?_eq_none (by simp; omega)]
        simp
      · rintro ⟨found, later⟩
        have inside : i < (names ++ [last]).length := (List.getElem?_eq_some_iff.mp found).1
        rw [List.length_append, List.length_singleton] at inside
        rcases Nat.lt_or_ge i names.length with before | atEnd
        · exact absurd (by simp [here]) (later names.length before)
        · rw [Option.some.injEq]
          omega
    · rw [if_neg here, ih]
      have same : ∀ j : Nat, (names ++ [last])[j]? = some name ↔ names[j]? = some name := by
        intro j
        rcases Nat.lt_trichotomy j names.length with before | atEnd | after
        · rw [List.getElem?_append_left before]
        · subst atEnd
          simp [here]
        · rw [List.getElem?_eq_none (by simp; omega), List.getElem?_eq_none (by omega)]
      simp only [ne_eq, same]

theorem lastIndex?_apart (names : List String) (name name' : String) (i : Nat) (first : lastIndex? names name = some i)
    (second : lastIndex? names name' = some i) : name = name' := by
  have here := (lastIndex?_eq_some_iff.mp first).1
  rw [(lastIndex?_eq_some_iff.mp second).1] at here
  exact (Option.some.inj here).symm

/-! ### Solutions -/

/-- Where different names have different positions, all values of names are read from positions. -/
theorem exists_reads {index : String → Option Nat}
    (apart : ∀ name name' i, index name = some i → index name' = some i → name = name') (v : String → Int) :
    ∃ x, Reads index x v := by
  classical
  refine ⟨fun i => if named : ∃ name, index name = some i then v named.choose else 0, fun name i known => ?_⟩
  have named : ∃ name, index name = some i := ⟨name, known⟩
  dsimp only
  rw [dif_pos named, apart _ _ i named.choose_spec known]

/-- Normalization keeps the solutions. An equation that comes out is normal and holds exactly where the constraint does;
    a constraint that is refused does not hold for any integers. -/
theorem normalize_keeps_solutions (index : String → Option Nat) (c : Constraint) :
    (∀ e, normalize index c = .equation e → e.Normal ∧ ∀ x v, Reads index x v → (c.Holds v ↔ e.Holds x)) ∧
      (normalize index c = .infeasible → (∀ x v, Reads index x v → ¬ c.Holds v) ∧
        ((∀ name name' i, index name = some i → index name' = some i → name = name') → ∀ v, ¬ c.Holds v)) := by
  refine ⟨fun e normal => ⟨normal_of_normalize normal, fun x v reads => (holds_of_normalize normal reads).symm⟩,
    fun refused => ⟨fun x v reads => not_holds_of_normalize refused reads, fun apart v => ?_⟩⟩
  obtain ⟨x, reads⟩ := exists_reads apart v
  exact not_holds_of_normalize refused reads

/-- Two names occur on both sides, and one of them cancels: 4x + 4y = 8 is left. -/
def cancelling : Constraint :=
  ⟨"cancelling", ⟨[⟨6, "x"⟩, ⟨4, "y"⟩, ⟨-5, "z"⟩], 1⟩, ⟨[⟨2, "x"⟩, ⟨-5, "z"⟩], 9⟩⟩

/-- All coefficients are multiples of 6 once they are on the left, and the constant is not: 6x + 12y = 4. -/
def indivisible : Constraint :=
  ⟨"indivisible", ⟨[⟨6, "x"⟩, ⟨9, "y"⟩], 0⟩, ⟨[⟨-3, "y"⟩], 4⟩⟩

theorem cancelling_solutions :
    normalize (lastIndex? ["z", "y", "x"]) cancelling = .equation ⟨[(2, 4), (1, 4)], 8⟩ ∧
      Equation.Normal ⟨[(2, 4), (1, 4)], 8⟩ ∧ (∀ v, v "x" + v "y" = 2 ↔ cancelling.Holds v) ∧
      normalize (lastIndex? ["z", "y", "x"]) indivisible = .infeasible ∧ ∀ v, ¬ indivisible.Holds v := by
  have equation : normalize (lastIndex? ["z", "y", "x"]) cancelling = .equation ⟨[(2, 4), (1, 4)], 8⟩ := by
    decide +kernel
  have refused : normalize (lastIndex? ["z", "y", "x"]) indivisible = .infeasible := by decide +kernel
  have apart := lastIndex?_apart ["z", "y", "x"]
  obtain ⟨normal, same⟩ := (normalize_keeps_solutions _ cancelling).1 _ equation
  refine ⟨equation, normal, fun v => ?_, refused, ((normalize_keeps_solutions _ indivisible).2 refused).2 apart⟩
  obtain ⟨x, reads⟩ := exists_reads apart v
  have four : (4 : Int64).toInt = 4 := rfl
  have eight : (8 : Int64).toInt = 8 := rfl
  rw [same x v reads, Equation.Holds, total_cons, total_cons, total_nil, four, eight,
    reads "x" 2 (by decide +kernel), reads "y" 1 (by decide +kernel)]
  dsimp only
  omega

end LoopConflict.Linear
