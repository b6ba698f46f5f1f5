import LoopConflict.Evolution.Arithmetic
import Mathlib.Data.List.Forall2

/-!
Adding up over the terms of a sum. Like terms are combined by leaving out all but one of them (`sublist_mergeLike`), and
opening the recurrences over a loop takes them out of the terms (`perm_parts`). So what terms weigh can be followed
through a sum, whatever it is that they are weighed by.
-/
namespace LoopConflict.Evolution

open Loop (LoopId)

/-- What the expressions weigh together. -/
def tally (g : Expr → Nat) : List Expr → Nat
  | [] => 0
  | e :: es => g e + tally g es

variable {g : Expr → Nat}

theorem tally_append (g : Expr → Nat) (es es' : List Expr) : tally g (es ++ es') = tally g es + tally g es' := by
  induction es with
  | nil => simp [tally]
  | cons e es ih => simp [tally, ih, Nat.add_assoc]

theorem tally_perm {es es' : List Expr} (perm : es.Perm es') : tally g es = tally g es' := by
  induction perm with
  | nil => rfl
  | cons e _ ih => simp [tally, ih]
  | swap e e' es => simp [tally]; omega
  | trans _ _ first second => exact first.trans second

theorem tally_sublist {es es' : List Expr} (sublist : es.Sublist es') : tally g es ≤ tally g es' := by
  induction sublist with
  | slnil => exact Nat.le_refl _
  | cons e _ ih => exact Nat.le_trans ih (Nat.le_add_left _ _)
  | cons_cons e _ ih => exact Nat.add_le_add_left ih _

theorem tally_le_of_forall₂ {es es' : List Expr} (each : List.Forall₂ (fun e e' => g e' ≤ g e) es es') :
    tally g es' ≤ tally g es := by
  induction each with
  | nil => exact Nat.le_refl _
  | cons here _ ih => exact Nat.add_le_add here ih

/-! ### Like terms -/

theorem addLike_bases (coeff : Int64) (base : Expr) (terms : List (Int64 × Expr)) :
    ((addLike coeff base terms).map (·.2)).Sublist (terms.map (·.2) ++ [base]) := by
  induction terms with
  | nil => exact .refl _
  | cons t terms ih =>
    rw [addLike]
    split
    · exact List.sublist_append_left _ _
    · exact ih.cons_cons _

theorem forall_mem_addLike {P : Expr → Prop} (coeff : Int64) {base : Expr} {terms : List (Int64 × Expr)} (first : P base)
    (each : ∀ t ∈ terms, P t.2) : ∀ t ∈ addLike coeff base terms, P t.2 := by
  intro t member
  have inside := (addLike_bases coeff base terms).mem (List.mem_map_of_mem member)
  rcases List.mem_append.mp inside with inTerms | isLast
  · obtain ⟨t', inTerms, same⟩ := List.mem_map.mp inTerms
    exact same ▸ each t' inTerms
  · exact List.mem_singleton.mp isLast ▸ first

theorem sublist_mergeLike (terms : List (Int64 × Expr)) : ((mergeLike terms).map (·.2)).Sublist (terms.map (·.2)) := by
  have fold : ∀ terms acc : List (Int64 × Expr),
      ((terms.foldl (fun acc t => addLike t.1 t.2 acc) acc).map (·.2)).Sublist (acc.map (·.2) ++ terms.map (·.2)) := by
    intro terms
    induction terms with
    | nil => simp
    | cons t terms ih =>
      intro acc
      have added := (addLike_bases t.1 t.2 acc).append_right (terms.map (·.2))
      rw [List.append_assoc] at added
      exact (ih (addLike t.1 t.2 acc)).trans added
  exact fold terms []

/-- What holds of all terms, their factors aside, holds of them when their like are combined. -/
theorem forall_mem_mergeLike {P : Expr → Prop} {terms : List (Int64 × Expr)} (each : ∀ t ∈ terms, P t.2) :
    ∀ t ∈ mergeLike terms, P t.2 := by
  intro t member
  have inside := (sublist_mergeLike terms).mem (List.mem_map_of_mem member)
  obtain ⟨t', inTerms, same⟩ := List.mem_map.mp inside
  exact same ▸ each t' inTerms

/-! ### Parts of recurrences -/

theorem eq_of_partsOver {l : LoopId} {e s t : Expr} (parts : partsOver l e = some (s, t)) : e = .recur l s t := by
  cases e with
  | recur m s' t' =>
    simp only [partsOver, Option.ite_none_right_eq_some, Option.some.injEq, Prod.mk.injEq] at parts
    obtain ⟨rfl, rfl, rfl⟩ := parts
    rfl
  | _ => cases parts

section

variable {P : Expr → Prop} {l : LoopId} {terms : List Expr}

theorem forall_mem_startsOver (each : ∀ s t, .recur l s t ∈ terms → P s) : ∀ s ∈ startsOver l terms, P s := by
  intro s member
  obtain ⟨⟨_, t⟩, inside, rfl⟩ := List.mem_map.mp member
  obtain ⟨e, here, parts⟩ := List.mem_filterMap.mp inside
  exact each _ t (eq_of_partsOver parts ▸ here)

theorem forall_mem_stepsOver (each : ∀ s t, .recur l s t ∈ terms → P t) : ∀ t ∈ stepsOver l terms, P t := by
  intro t member
  obtain ⟨⟨s, _⟩, inside, rfl⟩ := List.mem_map.mp member
  obtain ⟨e, here, parts⟩ := List.mem_filterMap.mp inside
  exact each s _ (eq_of_partsOver parts ▸ here)

theorem forall_mem_termsBeside (each : ∀ e ∈ terms, P e) : ∀ e ∈ termsBeside l terms, P e :=
  fun e member => each e (List.mem_filter.mp member).1

/-- What holds of all that is gathered in the start of a recurrence. -/
theorem forall_mem_gathered {k : Int64} (starts : ∀ e ∈ startsOver l terms, P e)
    (rest : ∀ e ∈ termsBeside l terms, P e) (const : P (.const k)) :
    ∀ e ∈ startsOver l terms ++ termsBeside l terms ++ [.const k], P e := by
  intro e member
  simp only [List.mem_append, List.mem_singleton] at member
  rcases member with (isStart | isRest) | rfl
  · exact starts e isStart
  · exact rest e isRest
  · exact const

end

/-- The terms are the recurrences over a loop and the others. -/
theorem perm_parts (l : LoopId) (terms : List Expr) :
    (termsBeside l terms ++ (terms.filterMap (partsOver l)).map fun p => Expr.recur l p.1 p.2).Perm terms := by
  unfold termsBeside
  induction terms with
  | nil => exact .nil
  | cons e terms ih =>
    cases parts : partsOver l e with
    | none =>
      simp only [List.filter_cons, parts, Option.isNone_none, if_true, List.filterMap_cons]
      exact ih.cons e
    | some p =>
      have whole : e = .recur l p.1 p.2 := eq_of_partsOver parts
      simp only [List.filter_cons, parts, Option.isNone_some, Bool.false_eq_true, if_false, List.filterMap_cons,
        List.map_cons]
      exact whole ▸ List.perm_middle.trans (ih.cons e)

/-- What opening the recurrences over a loop sets free: `k` units for each, if that is what a recurrence weighs more
    than its parts. -/
theorem tally_parts {l : LoopId} {k : Nat} (whole : ∀ s t, g (.recur l s t) = g s + g t + k) (terms : List Expr) :
    tally g terms = tally g (termsBeside l terms) + tally g (startsOver l terms) + tally g (stepsOver l terms) +
      k * (startsOver l terms).length := by
  have opened : ∀ parts : List (Expr × Expr), tally g (parts.map fun p => .recur l p.1 p.2) =
      tally g (parts.map (·.1)) + tally g (parts.map (·.2)) + k * parts.length := by
    intro parts
    induction parts with
    | nil => rfl
    | cons p parts ih =>
      simp only [List.map_cons, tally, whole, ih, List.length_cons, Nat.mul_succ]
      omega
  rw [← tally_perm (perm_parts l terms), tally_append, opened, startsOver, stepsOver, List.length_map]
  omega

end LoopConflict.Evolution
