import LoopConflict.Linear.Name

/-!
Names out of texts. Bytes that names cannot have are replaced, and one character may go in front, so the end
of a text stays what it is if it has no other characters than names can have (`exists_nameOfBytes_append`). The names
are those that the modelling language accepts (`isVariable_nameOfBytes`).
-/
namespace LoopConflict.Linear

theorem toList_loop_eq (b : ByteArray) (i : Nat) (before : List UInt8) :
    ByteArray.toList.loop b i before = before.reverse ++ b.data.toList.drop i := by
  fun_induction ByteArray.toList.loop b i before with
  | case1 i before inside ih =>
    have here : b.get! i = b.data.toList[i] := by
      rw [Array.getElem_toList]
      exact getElem!_pos b.data i inside
    rw [ih, List.reverse_cons, List.append_assoc, here, List.singleton_append]
    rw [← List.drop_eq_getElem_cons]
  | case2 i before outside =>
    rw [List.drop_eq_nil_of_le (by simpa using outside), List.append_nil]

theorem toList_eq_data (b : ByteArray) : b.toList = b.data.toList := by
  rw [ByteArray.toList, toList_loop_eq]
  rfl

/-- The bytes of a text. -/
theorem toUTF8_toList (s : String) : s.toUTF8.toList = s.toList.flatMap String.utf8EncodeChar := by
  rw [toList_eq_data, String.toUTF8_eq_toByteArray, ← String.utf8Encode_toList, List.utf8Encode,
    List.toList_data_toByteArray]

theorem toUTF8_toList_append (s t : String) : (s ++ t).toUTF8.toList = s.toUTF8.toList ++ t.toUTF8.toList := by
  rw [toUTF8_toList, toUTF8_toList, toUTF8_toList, String.toList_append, List.flatMap_append]

/-- A letter, a digit or an underscore of ASCII. -/
def IsNameChar (c : Char) : Prop :=
  c.isAlphanum = true ∨ c = '_'

theorem IsNameChar.toNat_lt {c : Char} (allowed : IsNameChar c) : c.toNat < 128 := by
  rcases allowed with alphanumeric | rfl
  · delta Char.isAlphanum Char.isAlpha Char.isUpper Char.isLower Char.isDigit at alphanumeric
    simp only [Bool.or_eq_true, Bool.and_eq_true, decide_eq_true_eq, UInt32.le_iff_toNat_le, ge_iff_le] at alphanumeric
    change c.val.toNat < 128
    have ends : 'Z'.val.toNat = 90 ∧ 'z'.val.toNat = 122 ∧ '9'.val.toNat = 57 := by decide
    omega
  · decide

/-- The characters that names can have stand for themselves. -/
theorem nameChar_of_isNameChar {c : Char} (allowed : IsNameChar c) :
    (String.utf8EncodeChar c).map nameChar = [c] := by
  have small := allowed.toNat_lt
  have all : ∀ n : Fin 128, (Char.ofNat n).isAlphanum = true ∨ Char.ofNat n = '_' →
      (String.utf8EncodeChar (Char.ofNat n)).map nameChar = [Char.ofNat n] := by decide +kernel
  have here := all ⟨c.toNat, small⟩
  rw [Char.ofNat_toNat] at here
  exact here allowed

theorem guardFront_cases (cs : List Char) : guardFront cs = cs ∨ guardFront cs = '_' :: cs := by
  cases cs with
  | nil => exact .inr rfl
  | cons c rest =>
    rw [guardFront]
    split
    · exact .inr rfl
    · exact .inl rfl

/-- The end of a byte string is the end of its name if it has no other characters than names can have. -/
theorem exists_nameOfBytes_append (bytes : List UInt8) {t : String} (allowed : ∀ c ∈ t.toList, IsNameChar c) :
    ∃ front, nameOfBytes (bytes ++ t.toUTF8.toList) = front ++ t.toList := by
  have kept : ∀ cs : List Char, (∀ c ∈ cs, IsNameChar c) →
      (cs.flatMap String.utf8EncodeChar).map nameChar = cs := by
    intro cs
    induction cs with
    | nil => intro _; rfl
    | cons c rest ih =>
      intro allowed
      rw [List.flatMap_cons, List.map_append, nameChar_of_isNameChar (allowed c (by simp)),
        ih fun d member => allowed d (by simp [member])]
      rfl
  have chars : (bytes ++ t.toUTF8.toList).map nameChar = bytes.map nameChar ++ t.toList := by
    rw [toUTF8_toList, List.map_append, kept t.toList allowed]
  rw [nameOfBytes, chars]
  rcases guardFront_cases (bytes.map nameChar ++ t.toList) with same | longer
  · exact ⟨_, same⟩
  · exact ⟨'_' :: bytes.map nameChar, longer⟩

/-! ### Names that are accepted -/

instance : DecidablePred IsNameChar :=
  fun c => inferInstanceAs (Decidable (c.isAlphanum = true ∨ c = '_'))

/-- Only letters, digits and underscores of ASCII. -/
def IsPlain (s : String) : Prop :=
  ∀ c ∈ s.toList, IsNameChar c

/-- A name that no number looks like. -/
structure IsVariable (s : String) : Prop where
  plain : IsPlain s
  front : ∃ c rest, s.toList = c :: rest ∧ c.isDigit = false

instance (s : String) : Decidable (IsPlain s) :=
  List.decidableBAll IsNameChar s.toList

instance (s : String) : Decidable (IsVariable s) :=
  decidable_of_iff (IsPlain s ∧ s.toList.head?.any (!·.isDigit) = true) <| by
    constructor
    · rintro ⟨plain, front⟩
      cases text : s.toList with
      | nil => simp [text] at front
      | cons c rest => exact ⟨plain, c, rest, text, by simpa [text] using front⟩
    · rintro ⟨plain, c, rest, text, front⟩
      exact ⟨plain, by simp [text, front]⟩

theorem isNameChar_nameChar (b : UInt8) : IsNameChar (nameChar b) := by
  have all : ∀ n : Fin 256, IsNameChar (nameChar (UInt8.ofNat n)) := by decide +kernel
  have here := all ⟨b.toNat, b.toNat_lt⟩
  rwa [UInt8.ofNat_toNat] at here

theorem exists_front_guardFront (cs : List Char) : ∃ c rest, guardFront cs = c :: rest ∧ c.isDigit = false := by
  cases cs with
  | nil => exact ⟨'_', [], rfl, by decide⟩
  | cons c rest =>
    rw [guardFront]
    split
    · exact ⟨'_', c :: rest, rfl, by decide⟩
    · rename_i noDigit
      exact ⟨c, rest, rfl, by simpa using noDigit⟩

/-- Whatever it is made of, a name is accepted. -/
theorem isVariable_nameOfBytes (bytes : List UInt8) : IsVariable (String.ofList (nameOfBytes bytes)) := by
  refine ⟨fun c member => ?_, ?_⟩
  · rw [String.toList_ofList] at member
    have inside : c = '_' ∨ c ∈ bytes.map nameChar := by
      rcases guardFront_cases (bytes.map nameChar) with same | longer
      · rw [nameOfBytes, same] at member
        exact .inr member
      · rw [nameOfBytes, longer] at member
        exact List.mem_cons.mp member
    rcases inside with rfl | replaced
    · exact .inr rfl
    · obtain ⟨b, _, rfl⟩ := List.mem_map.mp replaced
      exact isNameChar_nameChar b
  · rw [String.toList_ofList]
    exact exists_front_guardFront _

/-- A byte that names cannot have is not told from an underscore. -/
theorem nameOfBytes_replace {b : UInt8} (foreign : isNameByte b = false) (front rest : List UInt8) :
    nameOfBytes (front ++ b :: rest) = nameOfBytes (front ++ 95 :: rest) := by
  have same : nameChar b = nameChar 95 := by
    have underscore : nameChar 95 = '_' := by decide
    rw [underscore, nameChar, foreign, if_neg Bool.false_ne_true]
  rw [nameOfBytes, nameOfBytes, List.map_append, List.map_append, List.map_cons, List.map_cons, same]

end LoopConflict.Linear
