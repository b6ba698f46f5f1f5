import LoopConflict.Evolution.Expr
import LoopConflict.Proofs.Text.Decimal

/-!
Keys can be read back. The text of a number can be told from what follows it if that is no digit; the first
characters of a key tell what kind of expression it is, and each term of it ends where the next one begins. So two
expressions with the same key are equal (`key_injective`), if unknown values are numbered by one list and no
constant is put among the terms of a sum or a product that could stand apart from them (`Formed`).
-/
namespace LoopConflict

namespace Evolution.Expr

open Program (Value)
open Text (natChars intChars Stops stops_nil stops_cons natChars_append_inj intChars_append_inj)

/-! ### Terms -/

/-- The terms of an expression as its key shows them. -/
def operands : Expr → List Expr
  | .const _ => []
  | .unknown _ _ => []
  | .recur _ s t => [s, t]
  | .sum k ts => withConstant 0 k ts
  | .product k ts => withConstant 1 k ts

theorem mem_withConstant {unit k : Int64} {ts : List Expr} {e : Expr} (member : e ∈ ts) :
    e ∈ withConstant unit k ts := by
  unfold withConstant
  split <;> simp [member]

theorem eq_or_mem_of_mem_withConstant {unit k : Int64} {ts : List Expr} {e : Expr} (member : e ∈ withConstant unit k ts) :
    (e = .const k ∧ k ≠ unit) ∨ e ∈ ts := by
  unfold withConstant at member
  split at member
  · exact .inr member
  · rename_i other
    exact (List.mem_cons.mp member).imp_left fun same => ⟨same, other⟩

/-- The one expression occurs in the other. -/
inductive Part (p : Expr) : Expr → Prop where
  | self : Part p p
  | inside {o e : Expr} : o ∈ e.operands → Part p o → Part p e

theorem Part.trans {p o e : Expr} (first : p.Part o) (second : o.Part e) : p.Part e := by
  induction second with
  | self => exact first
  | inside member _ ih => exact .inside member ih

theorem eq_of_part_const {p : Expr} {n : Int64} (isPart : p.Part (.const n)) : p = .const n := by
  cases isPart with
  | self => rfl
  | inside member _ => cases member

/-- The one expression occurs in the other, and is no constant. -/
def ProperTerm (p e : Expr) : Prop :=
  p.Part e ∧ ∀ n, p ≠ .const n

theorem properTerm_self {p e : Expr} (other : ∀ n, e ≠ .const n) (member : p ∈ [e]) : p.ProperTerm e := by
  obtain rfl := List.mem_singleton.mp member
  exact ⟨.self, other⟩

mutual

/-- The terms of an opened sum occur in it. -/
theorem part_of_mem_summands : ∀ {e p : Expr}, p ∈ e.summands.2 → p.ProperTerm e
  | .const _, _, member => by cases member
  | .sum _ _, p, member => by
    obtain ⟨e, inside, isPart, noConst⟩ := part_of_mem_summandsOf member
    exact ⟨.inside (mem_withConstant inside) isPart, noConst⟩
  | .unknown _ _, _, member => properTerm_self (by simp) member
  | .recur _ _ _, _, member => properTerm_self (by simp) member
  | .product _ _, _, member => properTerm_self (by simp) member

theorem part_of_mem_summandsOf : ∀ {es : List Expr} {p : Expr}, p ∈ (summandsOf es).2 → ∃ e ∈ es, p.ProperTerm e
  | [], _, member => by cases member
  | e :: es, p, member => by
    rcases List.mem_append.mp member with first | rest
    · exact ⟨e, by simp, part_of_mem_summands first⟩
    · obtain ⟨e', inside, isPart⟩ := part_of_mem_summandsOf rest
      exact ⟨e', by simp [inside], isPart⟩

end

mutual

/-- The factors of an opened product occur in it. -/
theorem part_of_mem_factors : ∀ {e p : Expr}, p ∈ e.factors.2 → p.ProperTerm e
  | .const _, _, member => by cases member
  | .product _ _, p, member => by
    obtain ⟨e, inside, isPart, noConst⟩ := part_of_mem_factorsOf member
    exact ⟨.inside (mem_withConstant inside) isPart, noConst⟩
  | .unknown _ _, _, member => properTerm_self (by simp) member
  | .recur _ _ _, _, member => properTerm_self (by simp) member
  | .sum _ _, _, member => properTerm_self (by simp) member

theorem part_of_mem_factorsOf : ∀ {es : List Expr} {p : Expr}, p ∈ (factorsOf es).2 → ∃ e ∈ es, p.ProperTerm e
  | [], _, member => by cases member
  | e :: es, p, member => by
    rcases List.mem_append.mp member with first | rest
    · exact ⟨e, by simp, part_of_mem_factors first⟩
    · obtain ⟨e', inside, isPart⟩ := part_of_mem_factorsOf rest
      exact ⟨e', by simp [inside], isPart⟩

end

/-- Without a constant of its own no other constant stands in front of the terms. -/
def Apart (unit k : Int64) (ts : List Expr) : Prop :=
  k = unit → ∀ n, ts.head? = some (.const n) → n = unit

theorem withConstant_inj {unit k k' : Int64} {ts ts' : List Expr} (apart : Apart unit k ts) (apart' : Apart unit k' ts')
    (same : withConstant unit k ts = withConstant unit k' ts') : k = k' ∧ ts = ts' := by
  unfold withConstant at same
  split at same <;> split at same
  · rename_i here there
    exact ⟨here.trans there.symm, same⟩
  · rename_i here other
    exact absurd (apart here k' (by rw [same]; rfl)) other
  · rename_i other there
    exact absurd (apart' there k (by rw [← same]; rfl)) other
  · cases same
    exact ⟨rfl, rfl⟩

mutual

/-- Unknown values have the numbers that the list gives them, and the constants of sums and products are kept
    apart from the other terms. -/
def Formed (numbers : List Value) : Expr → Prop
  | .const _ => True
  | .unknown number v => numbers[number]? = some v
  | .recur _ s t => s.Formed numbers ∧ t.Formed numbers
  | .sum k ts => Apart 0 k ts ∧ AllFormed numbers ts
  | .product k ts => Apart 1 k ts ∧ AllFormed numbers ts

def AllFormed (numbers : List Value) : List Expr → Prop
  | [] => True
  | e :: es => e.Formed numbers ∧ AllFormed numbers es

end

variable {numbers : List Value}

theorem allFormed_iff {es : List Expr} : AllFormed numbers es ↔ ∀ e ∈ es, e.Formed numbers := by
  induction es with
  | nil => simp [AllFormed]
  | cons e es ih => simp [AllFormed, ih]

theorem allFormed_withConstant {unit k : Int64} {ts : List Expr} (formed : AllFormed numbers ts) :
    AllFormed numbers (withConstant unit k ts) := by
  unfold withConstant
  split
  · exact formed
  · exact ⟨trivial, formed⟩

/-! ### Reading keys -/

theorem keys_withConstant (unit k : Int64) (ts : List Expr) :
    keys (withConstant unit k ts) = (if k = unit then [] else ' ' :: intChars k.toInt) ++ keys ts := by
  unfold withConstant
  split <;> simp [keys, key]

theorem key_sum (k : Int64) (ts : List Expr) : (sum k ts).key = '(' :: '+' :: keys (withConstant 0 k ts) ++ [')'] := by
  simp [key, keys_withConstant]

theorem key_product (k : Int64) (ts : List Expr) :
    (product k ts).key = '(' :: '*' :: keys (withConstant 1 k ts) ++ [')'] := by
  simp [key, keys_withConstant]

/-- The rank of the expression whose key begins the text. -/
def rankOf : List Char → Nat
  | '%' :: _ => 1
  | '(' :: '*' :: _ => 2
  | '(' :: '+' :: _ => 3
  | '\x7b' :: _ => 4
  | _ => 0

theorem rankOf_key (e : Expr) (r : List Char) : rankOf (e.key ++ r) = e.rank := by
  cases e with
  | const n =>
    obtain ⟨c, rest, text, first⟩ := Text.exists_intChars n.toInt
    rw [key, text]
    unfold rankOf
    split
    all_goals first | rfl | skip
    all_goals
      rename_i same
      obtain ⟨rfl, _⟩ := List.cons.inj same
      exact absurd first (by decide)
  | unknown number v => simp [key, rankOf, rank]
  | recur l s t => simp [key, rankOf, rank]
  | sum k ts => simp [key, rankOf, rank]
  | product k ts => simp [key, rankOf, rank]

theorem rank_eq_of_key {e e' : Expr} {r r' : List Char} (same : e.key ++ r = e'.key ++ r') : e.rank = e'.rank := by
  rw [← rankOf_key e r, same, rankOf_key]

/-- The expression can be read from a text that begins with its key. -/
def Readable (numbers : List Value) (e : Expr) : Prop :=
  ∀ (e' : Expr) (r r' : List Char), e.Formed numbers → e'.Formed numbers → Stops r → Stops r' →
    e.key ++ r = e'.key ++ r' → e = e' ∧ r = r'

theorem readable_const (n : Int64) : Readable numbers (.const n) := by
  intro e' r r' _ _ stops stops' same
  have rank := rank_eq_of_key same
  cases e' with
  | const n' =>
    obtain ⟨value, rest⟩ := intChars_append_inj stops stops' same
    exact ⟨congrArg Expr.const (Int64.toInt_inj.mp value), rest⟩
  | _ => cases rank

/-- Terms that can be read one by one can be read from the list of their keys. -/
theorem readable_keys {es : List Expr} (each : ∀ e ∈ es, Readable numbers e) {es' : List Expr} {r r' : List Char}
    (formed : AllFormed numbers es) (formed' : AllFormed numbers es')
    (same : keys es ++ ')' :: r = keys es' ++ ')' :: r') : es = es' ∧ r = r' := by
  have stops : ∀ (es : List Expr) (r : List Char), Stops (keys es ++ ')' :: r) := by
    intro es r
    cases es with
    | nil => exact stops_cons (by decide) r
    | cons e es => exact stops_cons (by decide) _
  induction es generalizing es' with
  | nil =>
    cases es' with
    | nil => exact ⟨rfl, (List.cons.inj same).2⟩
    | cons e' es' => cases (List.cons.inj same).1
  | cons e es ih =>
    cases es' with
    | nil => cases (List.cons.inj same).1
    | cons e' es' =>
      have text : e.key ++ (keys es ++ ')' :: r) = e'.key ++ (keys es' ++ ')' :: r') := by
        simpa [keys] using same
      obtain ⟨rfl, rest⟩ := each e (by simp) e' _ _ formed.1 formed'.1 (stops es r) (stops es' r') text
      obtain ⟨rfl, done⟩ := ih (fun e member => each e (by simp [member])) formed.2 formed'.2 rest
      exact ⟨rfl, done⟩

/-- So can a constant and the terms that stand behind it. -/
theorem readable_terms {unit k k' : Int64} {ts ts' : List Expr} (each : ∀ e ∈ ts, Readable numbers e)
    {r r' : List Char} (formed : Apart unit k ts ∧ AllFormed numbers ts)
    (formed' : Apart unit k' ts' ∧ AllFormed numbers ts')
    (same : keys (withConstant unit k ts) ++ ')' :: r = keys (withConstant unit k' ts') ++ ')' :: r') :
    (k = k' ∧ ts = ts') ∧ r = r' := by
  have all : ∀ e ∈ withConstant unit k ts, Readable numbers e := by
    unfold withConstant
    split
    · exact each
    · exact List.forall_mem_cons.mpr ⟨readable_const k, each⟩
  obtain ⟨terms, rest⟩ := readable_keys all (allFormed_withConstant formed.2) (allFormed_withConstant formed'.2) same
  exact ⟨withConstant_inj formed.1 formed'.1 terms, rest⟩

mutual

theorem readable : ∀ e : Expr, Readable numbers e
  | .const n => readable_const n
  | .unknown number v => by
    intro e' r r' formed formed' stops stops' same
    have rank := rank_eq_of_key same
    cases e' with
    | unknown number' v' =>
      obtain ⟨rfl, rest⟩ := natChars_append_inj stops stops' (List.cons.inj (List.cons.inj same).2).2
      rw [Formed, formed] at formed'
      cases formed'
      exact ⟨rfl, rest⟩
    | _ => cases rank
  | .recur l s t => by
    intro e' r r' formed formed' stops stops' same
    have rank := rank_eq_of_key same
    cases e' with
    | recur l' s' t' =>
      -- The start ends at a comma, the step at a bracket and the number of the loop at another one.
      simp only [key, List.cons_append, List.append_assoc, List.nil_append, List.cons.injEq, true_and] at same
      obtain ⟨rfl, afterStart⟩ := readable s s' _ _ formed.1 formed'.1 (stops_cons (by decide) _)
        (stops_cons (by decide) _) same
      simp only [List.cons.injEq, true_and] at afterStart
      obtain ⟨rfl, afterStep⟩ := readable t t' _ _ formed.2 formed'.2 (stops_cons (by decide) _)
        (stops_cons (by decide) _) afterStart
      simp only [List.cons.injEq, true_and] at afterStep
      obtain ⟨rfl, afterLoop⟩ := natChars_append_inj (stops_cons (by decide) _) (stops_cons (by decide) _) afterStep
      exact ⟨rfl, (List.cons.inj afterLoop).2⟩
    | _ => cases rank
  | .sum k ts => by
    intro e' r r' formed formed' stops stops' same
    have rank := rank_eq_of_key same
    cases e' with
    | sum k' ts' =>
      simp only [key_sum, List.cons_append, List.append_assoc, List.nil_append, List.cons.injEq, true_and] at same
      obtain ⟨⟨rfl, rfl⟩, rest⟩ := readable_terms (readable_all ts) formed formed' same
      exact ⟨rfl, rest⟩
    | _ => cases rank
  | .product k ts => by
    intro e' r r' formed formed' stops stops' same
    have rank := rank_eq_of_key same
    cases e' with
    | product k' ts' =>
      simp only [key_product, List.cons_append, List.append_assoc, List.nil_append, List.cons.injEq, true_and] at same
      obtain ⟨⟨rfl, rfl⟩, rest⟩ := readable_terms (readable_all ts) formed formed' same
      exact ⟨rfl, rest⟩
    | _ => cases rank

theorem readable_all : ∀ (ts : List Expr), ∀ e ∈ ts, Readable numbers e
  | [] => fun _ none => by cases none
  | t :: ts => List.forall_mem_cons.mpr ⟨readable t, readable_all ts⟩

end

/-- The key tells an expression from all others. -/
theorem key_injective {e e' : Expr} (formed : e.Formed numbers) (formed' : e'.Formed numbers)
    (same : e.key = e'.key) : e = e' := by
  have text : e.key ++ [] = e'.key ++ [] := by rw [same]
  exact (readable e e' [] [] formed formed' stops_nil stops_nil text).1

end Evolution.Expr

end LoopConflict
