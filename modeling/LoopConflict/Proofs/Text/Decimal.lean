import LoopConflict.Text.Decimal

/-!
Decimal text can be read back: the digits of a number end where the text does not go on with one, and what
stands before that end tells the number.
-/
namespace LoopConflict.Text

/-- The text does not go on with a digit. -/
def Stops (r : List Char) : Prop :=
  ∀ c, r.head? = some c → c.isDigit = false

theorem stops_nil : Stops [] :=
  fun _ none => by cases none

theorem stops_cons {c : Char} (other : c.isDigit = false) (r : List Char) : Stops (c :: r) := by
  intro c' same
  cases same
  exact other

theorem isDigit_of_mem_natChars {n : Nat} {c : Char} (member : c ∈ natChars n) : c.isDigit = true :=
  Nat.isDigit_of_mem_toDigits (by decide) (by decide) member

theorem natChars_injective {m n : Nat} (same : natChars m = natChars n) : m = n := by
  have read := congrArg (Nat.ofDigitChars 10 · 0) same
  simpa only [natChars, Nat.ofDigitChars_ten_toDigits] using read

theorem exists_natChars (n : Nat) : ∃ c rest, natChars n = c :: rest ∧ c.isDigit = true := by
  cases text : natChars n with
  | nil => exact absurd text Nat.toDigits_ne_nil
  | cons c rest => exact ⟨c, rest, rfl, isDigit_of_mem_natChars (text ▸ List.mem_cons_self)⟩

/-- The digits of a number end where the text does not go on with one. -/
theorem takeWhile_natChars (n : Nat) {r : List Char} (stops : Stops r) :
    (natChars n ++ r).takeWhile Char.isDigit = natChars n := by
  rw [List.takeWhile_append_of_pos fun c member => isDigit_of_mem_natChars member]
  cases r with
  | nil => simp
  | cons c r => simp [stops c rfl]

theorem natChars_append_inj {m n : Nat} {r r' : List Char} (stops : Stops r) (stops' : Stops r')
    (same : natChars m ++ r = natChars n ++ r') : m = n ∧ r = r' := by
  have digits := congrArg (List.takeWhile Char.isDigit) same
  rw [takeWhile_natChars m stops, takeWhile_natChars n stops'] at digits
  rw [digits] at same
  exact ⟨natChars_injective digits, List.append_cancel_left same⟩

/-- The text of an integer begins with a digit or a minus sign. -/
theorem exists_intChars (n : Int) : ∃ c rest, intChars n = c :: rest ∧ (c.isDigit = true ∨ c = '-') := by
  cases n with
  | ofNat n =>
    obtain ⟨c, rest, text, digit⟩ := exists_natChars n
    exact ⟨c, rest, text, .inl digit⟩
  | negSucc n => exact ⟨'-', natChars (n + 1), rfl, .inr rfl⟩

theorem natChars_ne_minus (n : Nat) (r s : List Char) : natChars n ++ r ≠ '-' :: s := by
  obtain ⟨c, rest, text, digit⟩ := exists_natChars n
  rw [text]
  rintro same
  obtain ⟨rfl, _⟩ := List.cons.inj same
  exact absurd digit (by decide)

theorem intChars_append_inj {m n : Int} {r r' : List Char} (stops : Stops r) (stops' : Stops r')
    (same : intChars m ++ r = intChars n ++ r') : m = n ∧ r = r' := by
  cases m with
  | ofNat m =>
    cases n with
    | ofNat n =>
      obtain ⟨rfl, rest⟩ := natChars_append_inj stops stops' same
      exact ⟨rfl, rest⟩
    | negSucc n => exact absurd same (natChars_ne_minus m r _)
  | negSucc m =>
    cases n with
    | ofNat n => exact absurd same.symm (natChars_ne_minus n r' _)
    | negSucc n =>
      obtain ⟨number, rest⟩ := natChars_append_inj stops stops' (List.cons.inj same).2
      obtain rfl : m = n := by omega
      exact ⟨rfl, rest⟩

end LoopConflict.Text
