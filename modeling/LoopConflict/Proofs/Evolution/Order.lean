import LoopConflict.Proofs.Evolution.Keys
import LoopConflict.Proofs.Evolution.Meaning

/-!
The order of terms. Terms are compared by kind and then by key, so any two can be compared and putting a list of them
in order sorts it (`Expr.pairwise_ordered`). Where no later term could stand before an earlier one or in its place,
this is the only order (`Expr.InOrder`), and it does not matter in which order the terms came
(`Expr.ordered_eq_of_perm`).
-/
namespace LoopConflict.Evolution.Expr

open Program (Value)

/-! ### Texts -/

theorem alphabetical_total : ∀ a b : List Char, alphabetical a b = true ∨ alphabetical b a = true
  | [], _ => .inl rfl
  | _ :: _, [] => .inr rfl
  | c :: cs, d :: ds => by
    simp only [alphabetical, Bool.or_eq_true, decide_eq_true_eq, Bool.and_eq_true, beq_iff_eq]
    rcases Nat.lt_trichotomy c.toNat d.toNat with less | same | more
    · exact .inl (.inl less)
    · have equal := Char.toNat_inj.mp same
      rcases alphabetical_total cs ds with first | second
      · exact .inl (.inr ⟨equal, first⟩)
      · exact .inr (.inr ⟨equal.symm, second⟩)
    · exact .inr (.inl more)

theorem alphabetical_trans : ∀ {a b c : List Char}, alphabetical a b = true → alphabetical b c = true → alphabetical a c = true
  | [], _, _, _, _ => rfl
  | _ :: _, [], _, first, _ => by cases first
  | _ :: _, _ :: _, [], _, second => by cases second
  | x :: xs, y :: ys, z :: zs, first, second => by
    simp only [alphabetical, Bool.or_eq_true, decide_eq_true_eq, Bool.and_eq_true, beq_iff_eq] at first second ⊢
    rcases first with less | ⟨rfl, first⟩
    · rcases second with less' | ⟨rfl, _⟩
      · exact .inl (by omega)
      · exact .inl less
    · rcases second with less' | ⟨rfl, second⟩
      · exact .inl less'
      · exact .inr ⟨rfl, alphabetical_trans first second⟩

theorem alphabetical_antisymm : ∀ {a b : List Char}, alphabetical a b = true → alphabetical b a = true → a = b
  | [], [], _, _ => rfl
  | [], _ :: _, _, second => by cases second
  | _ :: _, [], first, _ => by cases first
  | x :: xs, y :: ys, first, second => by
    simp only [alphabetical, Bool.or_eq_true, decide_eq_true_eq, Bool.and_eq_true, beq_iff_eq] at first second
    rcases first with less | ⟨rfl, first⟩
    · rcases second with less' | ⟨rfl, _⟩ <;> omega
    · rcases second with less' | ⟨_, second⟩
      · omega
      · rw [alphabetical_antisymm first second]

/-! ### Terms -/

variable {a b c : Expr}

theorem precedes_iff : a.precedes b = true ↔ a.rank < b.rank ∨ a.rank = b.rank ∧ alphabetical a.key b.key = true := by
  simp [precedes]

theorem precedes_total (a b : Expr) : a.precedes b = true ∨ b.precedes a = true := by
  rw [precedes_iff, precedes_iff]
  rcases Nat.lt_trichotomy a.rank b.rank with less | same | more
  · exact .inl (.inl less)
  · exact (alphabetical_total a.key b.key).imp (fun first => .inr ⟨same, first⟩) fun second => .inr ⟨same.symm, second⟩
  · exact .inr (.inl more)

theorem precedes_trans (first : a.precedes b = true) (second : b.precedes c = true) : a.precedes c = true := by
  rw [precedes_iff] at *
  rcases first with less | ⟨same, first⟩
  · rcases second with less' | ⟨same', _⟩
    · exact .inl (by omega)
    · exact .inl (by omega)
  · rcases second with less' | ⟨same', second⟩
    · exact .inl (by omega)
    · exact .inr ⟨same.trans same', alphabetical_trans first second⟩

theorem key_eq_of_precedes (first : a.precedes b = true) (second : b.precedes a = true) : a.key = b.key := by
  rw [precedes_iff] at *
  rcases first with less | ⟨_, first⟩
  · omega
  · rcases second with less' | ⟨_, second⟩
    · omega
    · exact alphabetical_antisymm first second

theorem pairwise_place (e : Expr) {es : List Expr} (sorted : es.Pairwise fun a b => a.precedes b = true) :
    (place e es).Pairwise fun a b => a.precedes b = true := by
  induction es with
  | nil => simp [place]
  | cons x xs ih =>
    obtain ⟨first, rest⟩ := List.pairwise_cons.mp sorted
    rw [place]
    by_cases before : e.precedes x = true
    · rw [if_pos before]
      refine List.pairwise_cons.mpr ⟨List.forall_mem_cons.mpr ⟨before, fun y member => ?_⟩, sorted⟩
      exact precedes_trans before (first y member)
    · rw [if_neg before]
      have after : x.precedes e = true := (precedes_total x e).resolve_right before
      refine List.pairwise_cons.mpr ⟨fun y member => ?_, ih rest⟩
      rcases List.mem_cons.mp ((place_perm e xs).mem_iff.mp member) with rfl | inside
      · exact after
      · exact first y inside

theorem pairwise_ordered (es : List Expr) : (ordered es).Pairwise fun a b => a.precedes b = true := by
  induction es with
  | nil => exact .nil
  | cons e es ih => exact pairwise_place e ih

/-! ### The only order -/

/-- The terms of a sum or the factors of a product, the constant apart. -/
def terms : Expr → List Expr
  | .sum _ ts => ts
  | .product _ ts => ts
  | _ => []

/-- No later one could stand before an earlier one or in its place, unless it is the same. -/
def Strict (es : List Expr) : Prop :=
  es.Pairwise fun a b => a = b ∨ b.precedes a = false

/-- The terms stand in the only order that they can be put in. -/
def InOrder (e : Expr) : Prop :=
  Strict e.terms

instance (e : Expr) : Decidable e.InOrder :=
  inferInstanceAs (Decidable (e.terms.Pairwise fun a b => a = b ∨ b.precedes a = false))

theorem Strict.pairwise {es : List Expr} (strict : Strict es) : es.Pairwise fun a b => a.precedes b = true := by
  refine strict.imp fun {a b} either => ?_
  rcases either with rfl | after
  · exact (precedes_total a a).elim id id
  · exact (precedes_total a b).resolve_right (by simp [after])

/-- Two members that could stand in each other's place are the same. -/
theorem Strict.eq_of_precedes {es : List Expr} (strict : Strict es) (inside : a ∈ es) (inside' : b ∈ es)
    (first : a.precedes b = true) (second : b.precedes a = true) : a = b := by
  induction es with
  | nil => cases inside
  | cons x xs ih =>
    obtain ⟨before, rest⟩ := List.pairwise_cons.mp strict
    rcases List.mem_cons.mp inside with rfl | later
    · rcases List.mem_cons.mp inside' with rfl | later'
      · rfl
      · exact (before b later').resolve_right (by simp [second])
    · rcases List.mem_cons.mp inside' with rfl | later'
      · exact ((before a later).resolve_right (by simp [first])).symm
      · exact ih rest later later'

/-- Terms of which none could stand in the place of another one are put in that order, however they came. -/
theorem ordered_eq_of_perm {xs ys : List Expr} (strict : Strict ys) (perm : xs.Perm ys) : ordered xs = ys := by
  have sorted := (ordered_perm xs).trans perm
  refine sorted.eq_of_pairwise (fun a b inside inside' first second => ?_) (pairwise_ordered xs) strict.pairwise
  exact strict.eq_of_precedes (sorted.mem_iff.mp inside) inside' first second

/-- Sorted terms of which the keys tell which they are. -/
theorem strict_of_formed {numbers : List Value} {es : List Expr} (sorted : es.Pairwise fun a b => a.precedes b = true)
    (formed : ∀ e ∈ es, e.Formed numbers) : Strict es := by
  refine sorted.imp_of_mem fun {a b} inside inside' before => ?_
  by_cases after : b.precedes a = true
  · exact .inl (key_injective (formed a inside) (formed b inside') (key_eq_of_precedes before after))
  · exact .inr (by simpa using after)

theorem strict_ordered {numbers : List Value} {es : List Expr} (formed : ∀ e ∈ es, e.Formed numbers) :
    Strict (ordered es) :=
  strict_of_formed (pairwise_ordered es) fun e member => formed e ((ordered_perm es).mem_iff.mp member)

/-- A sum shows its terms in order. -/
theorem operands_sumOf (terms : List Expr) : (sumOf terms).operands = ordered terms := by
  rw [sumOf]
  split
  · rename_i c rest first
    by_cases zero : c = 0
    · simp [zero, operands, withConstant, first]
    · simp [zero, operands, withConstant, first]
  · simp [operands, withConstant]

theorem loop?_sumOf (es : List Expr) : (sumOf es).loop? = none := by
  rw [sumOf]
  split
  · split <;> rfl
  · rfl

theorem inOrder_sumOf {es : List Expr} (strict : Strict (ordered es)) : (sumOf es).InOrder := by
  rw [sumOf]
  split
  · rename_i c rest first
    rw [first] at strict
    split
    · exact strict
    · exact (List.pairwise_cons.mp strict).2
  · exact strict

end LoopConflict.Evolution.Expr
