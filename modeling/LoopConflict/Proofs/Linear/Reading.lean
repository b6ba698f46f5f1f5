import LoopConflict.Linear.Model
import LoopConflict.Proofs.Linear.Name
import LoopConflict.Proofs.Text.Buffer
import LoopConflict.Proofs.Text.Decimal

/-!
The text of a model can be read back. A model is written in lines and a line in fields with blanks between
them, and neither line ends nor blanks occur inside of a field. So splitting recovers the fields, and the
fields tell the parts of the model, although signs, unit coefficients, zero constants and absent bounds are
moved or left out in them (`text_determines_model`). The names are those that the modelling language accepts.
-/
namespace LoopConflict.Linear

open Text (Buffer Counter)

/-! ### The reader -/

/-- The word that decimal digits stand for, after a minus sign or without one. -/
def readWord : List Char → Int64
  | [] => 0
  | c :: rest =>
    if c = '-' then -Int64.ofNat (Nat.ofDigitChars 10 rest 0) else Int64.ofNat (Nat.ofDigitChars 10 (c :: rest) 0)

/-- A part of a linear form. -/
inductive Summand where
  | term (t : Term)
  | const (n : Int64)
deriving DecidableEq, Repr

def Summand.negate : Summand → Summand
  | .term t => .term ⟨-t.coeff, t.var⟩
  | .const n => .const (-n)

/-- The form that summands make. -/
def formOf : List Summand → Form
  | [] => ⟨[], 0⟩
  | .term t :: rest => ⟨t :: (formOf rest).terms, (formOf rest).const⟩
  | .const n :: rest => ⟨(formOf rest).terms, n + (formOf rest).const⟩

/-- The text begins like a number. -/
def isNumeral (cs : List Char) : Bool :=
  cs.head?.any fun c => c.isDigit || c = '-'

/-- A summand without the sign before it. -/
def readSummand (cs : List Char) : Summand :=
  match cs.splitOn '*' with
  | [number, name] => .term ⟨readWord number, String.ofList name⟩
  | _ => if isNumeral cs then .const (readWord cs) else .term ⟨1, String.ofList cs⟩

/-- The first summand of a form, with its sign. -/
def readLeading (cs : List Char) : Summand :=
  if cs.head? = some '-' then (readSummand cs.tail).negate else readSummand cs

/-- The further summands, each after a field for its sign. -/
def readFollowing : List (List Char) → List Summand
  | sign :: body :: rest =>
    (if sign = ['-'] then (readSummand body).negate else readSummand body) :: readFollowing rest
  | _ => []

def readForm : List (List Char) → Form
  | [] => ⟨[], 0⟩
  | first :: rest => formOf (readLeading first :: readFollowing rest)

/-- The fields of a line; its last character ends it. -/
def fields (line : List Char) : List (List Char) :=
  line.dropLast.splitOn ' '

/-- The bounds in the fields after a name, of which the last one is a keyword. -/
def readBounds : List (List Char) → Option Int64 × Option Int64
  | [relation, n, _] => if relation = ['>', '='] then (some (readWord n), none) else (none, some (readWord n))
  | [_, lower, _, upper, _] => (some (readWord lower), some (readWord upper))
  | _ => (none, none)

def readVar? (line : List Char) : Option Var :=
  match fields line with
  | _ :: name :: rest => some ⟨String.ofList name, (readBounds rest).1, (readBounds rest).2⟩
  | _ => none

def readConstraint? (line : List Char) : Option Constraint :=
  match fields line with
  | _ :: name :: sides =>
    match sides.splitOn ['='] with
    | [lhs, rhs] => some ⟨String.ofList name.dropLast, readForm lhs, readForm rhs⟩
    | _ => none
  | _ => none

/-- The line after the constraints. -/
def solveLine : List Char := ['s', 'o', 'l', 'v', 'e', ';']

/-- Reads the text of a model. Empty lines stand around the objective. -/
def readModel? (text : String) : Option Model :=
  match (text.toList.splitOn '\n').splitOn [] with
  | [declarations, [objective], rest, _] =>
    match fields objective with
    | [_, label, name] => do
      let vars ← declarations.mapM readVar?
      let constraints ← (rest.takeWhile (· ≠ solveLine)).mapM readConstraint?
      return ⟨String.ofList label.dropLast, vars, String.ofList name, constraints⟩
    | _ => none
  | _ => none

/-! ### Names -/

/-- The names in a model are such that the modelling language can tell them from the rest of the text. -/
structure Model.WellNamed (m : Model) : Prop where
  label : IsPlain m.label
  objective : IsPlain m.objective
  vars : ∀ v ∈ m.vars, IsVariable v.name
  constraints : ∀ c ∈ m.constraints, IsPlain c.name
  terms : ∀ c ∈ m.constraints, ∀ t ∈ c.lhs.terms ++ c.rhs.terms, IsVariable t.var

/-! ### Splitting -/

section
variable {α : Type} [BEq α] [LawfulBEq α] {x : α}

/-- Parts with a separator between neighbours. -/
theorem splitOn_separated {first : List α} {rest : List (List α)} (absent : ∀ part ∈ first :: rest, x ∉ part) :
    (first ++ rest.flatMap (x :: ·)).splitOn x = first :: rest := by
  induction rest generalizing first with
  | nil => simpa using List.splitOn_eq_singleton (absent first (by simp))
  | cons second rest ih =>
    rw [List.flatMap_cons, List.cons_append, List.splitOn_append_cons_self_of_not_mem (absent first (by simp)),
      ih fun part member => absent part (List.mem_cons_of_mem _ member)]

/-- Parts with a separator after each of them. -/
theorem splitOn_terminated {parts : List (List α)} (absent : ∀ part ∈ parts, x ∉ part) :
    (parts.flatMap (· ++ [x])).splitOn x = parts ++ [[]] := by
  induction parts with
  | nil => rfl
  | cons part rest ih =>
    rw [List.flatMap_cons, List.append_assoc, List.singleton_append,
      List.splitOn_append_cons_self_of_not_mem (absent part (by simp)),
      ih fun part member => absent part (List.mem_cons_of_mem _ member), List.cons_append]

end

theorem mapM_map_eq_some {α β : Type} {write : α → β} {read : β → Option α} {xs : List α}
    (back : ∀ x ∈ xs, read (write x) = some x) : (xs.map write).mapM read = some xs := by
  induction xs with
  | nil => rfl
  | cons x rest ih =>
    rw [List.map_cons, List.mapM_cons, back x (by simp), ih fun y member => back y (List.mem_cons_of_mem _ member)]
    rfl

theorem toList_concat (texts : List String) : (Text.concat texts).toList = texts.flatMap String.toList := by
  induction texts with
  | nil => rfl
  | cons text rest ih => rw [Text.concat, String.toList_append, ih, List.flatMap_cons]

/-! ### Characters -/

/-- The characters of the parts of linear forms. -/
def IsFormChar (c : Char) : Prop :=
  IsNameChar c ∨ c ∈ ['+', '-', '*']

instance : DecidablePred IsFormChar :=
  fun c => inferInstanceAs (Decidable (IsNameChar c ∨ c ∈ ['+', '-', '*']))

theorem not_mem_of_all {p : Char → Prop} {cs : List Char} (all : ∀ c ∈ cs, p c) {d : Char} (other : ¬ p d) : d ∉ cs :=
  fun member => other (all d member)

theorem isNameChar_of_isDigit {c : Char} (digit : c.isDigit = true) : IsNameChar c :=
  .inl (by rw [Char.isAlphanum, digit, Bool.or_true])

theorem mem_word {n : Int64} {c : Char} (member : c ∈ (Text.word n).toList) : c.isDigit = true ∨ c = '-' := by
  rw [Text.word, Text.int, String.toList_ofList] at member
  cases value : n.toInt with
  | ofNat k =>
    rw [value, Text.intChars] at member
    exact .inl (Text.isDigit_of_mem_natChars member)
  | negSucc k =>
    rw [value, Text.intChars, List.mem_cons] at member
    exact member.symm.imp Text.isDigit_of_mem_natChars id

theorem isFormChar_word {n : Int64} : ∀ c ∈ (Text.word n).toList, IsFormChar c := by
  intro c member
  rcases mem_word member with digit | rfl
  · exact .inl (isNameChar_of_isDigit digit)
  · decide

theorem star_not_mem_word (n : Int64) : '*' ∉ (Text.word n).toList := by
  intro member
  rcases mem_word member with digit | minus
  · exact absurd digit (by decide)
  · exact absurd minus (by decide)

/-! ### Words -/

theorem readWord_natChars (k : Nat) : readWord (Text.natChars k) = Int64.ofNat k := by
  obtain ⟨c, rest, text, digit⟩ := Text.exists_natChars k
  have other : c ≠ '-' := by
    rintro rfl
    exact absurd digit (by decide)
  have number : Nat.ofDigitChars 10 (Text.natChars k) 0 = k := Nat.ofDigitChars_ten_toDigits
  rw [text] at number ⊢
  rw [readWord, if_neg other, number]

/-- A word is written with digits only, or with a minus sign before them. -/
theorem word_cases (n : Int64) :
    (¬ n < 0 ∧ ∃ k, (Text.word n).toList = Text.natChars k ∧ n = Int64.ofNat k) ∨
      n < 0 ∧ ∃ k, (Text.word n).toList = '-' :: Text.natChars k ∧ n = -Int64.ofNat k := by
  rw [Text.word, Text.int, String.toList_ofList, Int64.lt_iff_toInt_lt, Int64.toInt_zero]
  have back := Int64.ofInt_toInt n
  cases value : n.toInt with
  | ofNat k =>
    refine .inl ⟨by simp, k, rfl, ?_⟩
    rw [← Int64.ofInt_eq_ofNat, ← back, value]
    rfl
  | negSucc k =>
    refine .inr ⟨by simp, k + 1, rfl, ?_⟩
    rw [← Int64.ofInt_eq_ofNat, ← Int64.ofInt_neg, ← back, value]
    rfl

theorem readWord_word (n : Int64) : readWord (Text.word n).toList = n := by
  rcases word_cases n with ⟨_, k, text, value⟩ | ⟨_, k, text, value⟩
  · rw [text, readWord_natChars, value]
  · have number : Nat.ofDigitChars 10 (Text.natChars k) 0 = k := Nat.ofDigitChars_ten_toDigits
    rw [text, readWord, if_pos rfl, number, value]

theorem isNumeral_natChars (k : Nat) : isNumeral (Text.natChars k) = true := by
  obtain ⟨c, rest, text, digit⟩ := Text.exists_natChars k
  simp [text, isNumeral, digit]

theorem isNumeral_word (n : Int64) : isNumeral (Text.word n).toList = true := by
  rcases word_cases n with ⟨_, k, text, _⟩ | ⟨_, k, text, _⟩
  · rw [text, isNumeral_natChars]
  · simp [text, isNumeral]

/-! ### Summands -/

theorem readSummand_numeral {cs : List Char} (plain : '*' ∉ cs) (numeral : isNumeral cs = true) :
    readSummand cs = .const (readWord cs) := by
  rw [readSummand, List.splitOn_eq_singleton plain]
  simp [numeral]

theorem readSummand_word (n : Int64) : readSummand (Text.word n).toList = .const n := by
  rw [readSummand_numeral (star_not_mem_word n) (isNumeral_word n), readWord_word]

theorem IsVariable.not_isNumeral {name : String} (named : IsVariable name) : isNumeral name.toList = false := by
  obtain ⟨c, rest, text, front⟩ := named.front
  have other : c ≠ '-' := by
    rintro rfl
    exact absurd (named.plain '-' (by simp [text])) (by decide)
  simp [isNumeral, text, front, other]

theorem readSummand_body (t : Term) (named : IsVariable t.var) :
    readSummand t.body.toList = .term ⟨magnitude t.coeff, t.var⟩ := by
  have plain : '*' ∉ t.var.toList := not_mem_of_all named.plain (by decide)
  rw [Term.body]
  by_cases unit : magnitude t.coeff = 1
  · rw [if_pos unit, readSummand, List.splitOn_eq_singleton plain]
    simp [named.not_isNumeral, unit]
  · have parts : (Text.word (magnitude t.coeff) ++ "*" ++ t.var).toList.splitOn '*' =
        [(Text.word (magnitude t.coeff)).toList, t.var.toList] := by
      simp [String.toList_append, List.splitOn_append_cons_self_of_not_mem (star_not_mem_word _),
        List.splitOn_eq_singleton plain]
    rw [if_neg unit, readSummand, parts]
    simp [readWord_word]

/-- A sign changes a summand to its negation. -/
theorem negate_magnitude {n : Int64} (negative : n < 0) : -magnitude n = n := by
  rw [magnitude, if_pos negative, Int64.neg_neg]

theorem magnitude_of_not_negative {n : Int64} (positive : ¬ n < 0) : magnitude n = n := by
  rw [magnitude, if_neg positive]

theorem head?_natChars (k : Nat) (rest : List Char) : (Text.natChars k ++ rest).head? ≠ some '-' := by
  obtain ⟨c, more, text, digit⟩ := Text.exists_natChars k
  rw [text]
  rintro same
  cases same
  exact absurd digit (by decide)

/-- Without a sign before it, a term that is not negative begins with a digit or with its name. -/
theorem head?_body (t : Term) (named : IsVariable t.var) (positive : ¬ t.coeff < 0) :
    t.body.toList.head? ≠ some '-' := by
  rw [Term.body, magnitude_of_not_negative positive]
  by_cases unit : t.coeff = 1
  · have letter := named.not_isNumeral
    rw [if_pos unit]
    intro minus
    simp [isNumeral, minus] at letter
  · rcases word_cases t.coeff with ⟨_, k, text, _⟩ | ⟨negative, _⟩
    · simpa [unit, String.toList_append, text] using head?_natChars k ('*' :: t.var.toList)
    · exact absurd negative positive

theorem readLeading_leading (t : Term) (named : IsVariable t.var) : readLeading t.leading.toList = .term t := by
  rw [Term.leading]
  by_cases negative : t.coeff < 0
  · simp [negative, readLeading, String.toList_append, readSummand_body t named, Summand.negate,
      negate_magnitude negative]
  · rw [if_neg negative, readLeading, if_neg (head?_body t named negative), readSummand_body t named,
      magnitude_of_not_negative negative]

theorem readLeading_word (n : Int64) : readLeading (Text.word n).toList = .const n := by
  rcases word_cases n with ⟨_, k, text, _⟩ | ⟨_, k, text, value⟩
  · have front := head?_natChars k []
    rw [List.append_nil, ← text] at front
    rw [readLeading, if_neg front, readSummand_word]
  · have plain : '*' ∉ Text.natChars k := by
      intro member
      exact absurd (Text.isDigit_of_mem_natChars member) (by decide)
    rw [text, readLeading, List.head?_cons, if_pos rfl, List.tail_cons, readSummand_numeral plain (isNumeral_natChars k),
      readWord_natChars, Summand.negate, ← value]

/-! ### Forms -/

/-- The field before a summand that is not the first one. -/
def signField (n : Int64) : List Char :=
  if n < 0 then ['-'] else ['+']

/-- The fields of a constant after the terms. -/
def constFields (n : Int64) : List (List Char) :=
  if n = 0 then [] else [signField n, (Text.word (magnitude n)).toList]

def Form.firstField (e : Form) : List Char :=
  match e.terms with
  | [] => (Text.word e.const).toList
  | t :: _ => t.leading.toList

def Form.furtherFields (e : Form) : List (List Char) :=
  match e.terms with
  | [] => []
  | _ :: rest => (rest.flatMap fun t => [signField t.coeff, t.body.toList]) ++ constFields e.const

theorem Form.text_toList (e : Form) : e.text.toList = e.firstField ++ e.furtherFields.flatMap (' ' :: ·) := by
  obtain ⟨terms, const⟩ := e
  cases terms with
  | nil => simp [Form.text, Form.firstField, Form.furtherFields]
  | cons t rest =>
    have following : ∀ t : Term, t.following.toList = ' ' :: signField t.coeff ++ ' ' :: t.body.toList := by
      intro t
      by_cases negative : t.coeff < 0 <;> simp [Term.following, signField, negative, String.toList_append]
    have ending : (followingConst const).toList = (constFields const).flatMap (' ' :: ·) := by
      by_cases zero : const = 0
      · simp [followingConst, constFields, zero]
      · by_cases negative : const < 0 <;>
          simp [followingConst, constFields, signField, magnitude, zero, negative, String.toList_append]
    simp only [Form.text, Form.firstField, Form.furtherFields, String.toList_append, toList_concat, ending,
      List.flatMap_map, following, List.flatMap_append, List.flatMap_assoc, List.append_assoc]
    simp

theorem readFollowing_cons {n : Int64} {body : List Char} {rest : List (List Char)} :
    readFollowing (signField n :: body :: rest) =
      (if n < 0 then (readSummand body).negate else readSummand body) :: readFollowing rest := by
  by_cases negative : n < 0 <;> simp [readFollowing, signField, negative]

theorem readFollowing_terms {terms : List Term} (named : ∀ t ∈ terms, IsVariable t.var) (rest : List (List Char)) :
    readFollowing ((terms.flatMap fun t => [signField t.coeff, t.body.toList]) ++ rest) =
      terms.map .term ++ readFollowing rest := by
  induction terms with
  | nil => rfl
  | cons t terms ih =>
    have later := ih fun u member => named u (List.mem_cons_of_mem _ member)
    simp only [List.flatMap_cons, List.cons_append, List.nil_append, readFollowing_cons, later, List.map_cons,
      readSummand_body t (named t (by simp))]
    by_cases negative : t.coeff < 0
    · simp [negative, Summand.negate, negate_magnitude negative]
    · simp [negative, magnitude_of_not_negative negative]

theorem formOf_following (terms : List Term) (n : Int64) :
    formOf (terms.map .term ++ readFollowing (constFields n)) = ⟨terms, n⟩ := by
  induction terms with
  | nil =>
    by_cases zero : n = 0
    · simp [constFields, zero, readFollowing, formOf]
    · by_cases negative : n < 0
      · simp [constFields, zero, readFollowing_cons, readFollowing, negative, readSummand_word, Summand.negate,
          negate_magnitude negative, formOf]
      · simp [constFields, zero, readFollowing_cons, readFollowing, negative, readSummand_word,
          magnitude_of_not_negative negative, formOf]
  | cons t rest ih => simp [formOf, ih]

theorem readForm_fields {e : Form} (named : ∀ t ∈ e.terms, IsVariable t.var) :
    readForm (e.firstField :: e.furtherFields) = e := by
  obtain ⟨terms, const⟩ := e
  cases terms with
  | nil => simp [readForm, Form.firstField, Form.furtherFields, readLeading_word, readFollowing, formOf]
  | cons t rest =>
    simp only [readForm, Form.firstField, Form.furtherFields, readLeading_leading t (named t (by simp)),
      readFollowing_terms fun u member => named u (List.mem_cons_of_mem _ member), formOf, formOf_following]

theorem isFormChar_body {t : Term} (named : IsVariable t.var) : ∀ c ∈ t.body.toList, IsFormChar c := by
  intro c member
  rw [Term.body] at member
  by_cases unit : magnitude t.coeff = 1
  · rw [if_pos unit] at member
    exact .inl (named.plain c member)
  · simp only [unit, ↓reduceIte, String.toList_append, List.mem_append] at member
    rcases member with (digit | star) | letter
    · exact isFormChar_word c digit
    · simp at star
      subst star
      decide
    · exact .inl (named.plain c letter)

theorem isFormChar_signField (n : Int64) : ∀ c ∈ signField n, IsFormChar c := by
  unfold signField
  split <;> exact List.forall_mem_singleton.mpr (by decide)

/-- The fields of a form hold names, digits, signs and stars. -/
theorem isFormChar_fields {e : Form} (named : ∀ t ∈ e.terms, IsVariable t.var) :
    ∀ field ∈ e.firstField :: e.furtherFields, ∀ c ∈ field, IsFormChar c := by
  obtain ⟨terms, const⟩ := e
  cases terms with
  | nil =>
    intro field member
    simp only [Form.firstField, Form.furtherFields, List.mem_singleton] at member
    subst member
    exact isFormChar_word
  | cons t rest =>
    intro field member
    simp only [Form.firstField, Form.furtherFields, List.mem_cons, List.mem_append, List.mem_flatMap] at member
    rcases member with rfl | ⟨u, later, rfl | rfl | none⟩ | ending
    · have front := isFormChar_body (named t (by simp))
      rw [Term.leading]
      split
      · intro c inside
        simp only [String.toList_append, List.mem_append] at inside
        rcases inside with minus | body
        · simp at minus
          subst minus
          decide
        · exact front c body
      · exact front
    · exact isFormChar_signField _
    · exact isFormChar_body (named u (List.mem_cons_of_mem _ later))
    · cases none
    · rw [constFields] at ending
      split at ending
      · cases ending
      · simp only [List.mem_cons, List.not_mem_nil, or_false] at ending
        rcases ending with rfl | rfl
        · exact isFormChar_signField _
        · exact isFormChar_word

/-! ### Lines -/

/-- Neither a blank nor a line end occurs. -/
def IsTight (field : List Char) : Prop :=
  ' ' ∉ field ∧ '\n' ∉ field

theorem isTight_of_all {p : Char → Prop} {field : List Char} (all : ∀ c ∈ field, p c) (blank : ¬ p ' ')
    (lineEnd : ¬ p '\n') : IsTight field :=
  ⟨not_mem_of_all all blank, not_mem_of_all all lineEnd⟩

theorem isTight_of_isPlain {name : String} (plain : IsPlain name) : IsTight name.toList :=
  isTight_of_all plain (by decide) (by decide)

theorem isTight_word (n : Int64) : IsTight (Text.word n).toList :=
  isTight_of_all isFormChar_word (by decide) (by decide)

/-- A line with the given fields. -/
def lineOf (first : List Char) (rest : List (List Char)) : List Char :=
  first ++ rest.flatMap (' ' :: ·) ++ [';']

section
variable {first : List Char} {rest : List (List Char)}

theorem fields_lineOf (tight : ∀ field ∈ first :: rest, IsTight field) : fields (lineOf first rest) = first :: rest := by
  rw [fields, lineOf, List.dropLast_concat]
  exact splitOn_separated fun field member => (tight field member).1

theorem lineEnd_not_mem_lineOf (tight : ∀ field ∈ first :: rest, IsTight field) : '\n' ∉ lineOf first rest := by
  intro member
  simp only [lineOf, List.mem_append, List.mem_flatMap, List.mem_cons] at member
  rcases member with (here | ⟨field, inside, blank | there⟩) | ending
  · exact (tight first (by simp)).2 here
  · exact absurd blank (by decide)
  · exact (tight field (by simp [inside])).2 there
  · simp at ending

theorem lineOf_ne_nil : lineOf first rest ≠ [] := by
  simp [lineOf]

end

/-- The fields of a bound after its relation. -/
def boundFields (relation : List Char) : Option Int64 → List (List Char)
  | none => []
  | some n => [relation, (Text.word n).toList]

/-- The fields of a declaration after the first one. -/
def Var.fields (v : Var) : List (List Char) :=
  v.name.toList :: (boundFields ['>', '='] v.lower ++ boundFields ['<', '='] v.upper ++ ["integer".toList])

def Var.line (v : Var) : List Char :=
  lineOf "var".toList v.fields

theorem Var.pieces_toList (v : Var) : v.pieces.flatMap String.toList = v.line ++ ['\n'] := by
  obtain ⟨name, lower, upper⟩ := v
  cases lower <;> cases upper <;>
    simp [Var.pieces, Var.line, Var.fields, lineOf, boundPieces, boundFields, String.toList_append]

theorem Var.isTight_fields {v : Var} (named : IsVariable v.name) :
    ∀ field ∈ "var".toList :: v.fields, IsTight field := by
  have bound : ∀ relation, IsTight relation → ∀ n, ∀ field ∈ boundFields relation n, IsTight field := by
    intro relation tight n field member
    cases n with
    | none => cases member
    | some n =>
      simp only [boundFields, List.mem_cons, List.not_mem_nil, or_false] at member
      rcases member with rfl | rfl
      · exact tight
      · exact isTight_word n
  intro field member
  simp only [Var.fields, List.mem_cons, List.mem_append, List.not_mem_nil, or_false] at member
  rcases member with rfl | rfl | (lower | upper) | rfl
  · exact ⟨by decide, by decide⟩
  · exact isTight_of_isPlain named.plain
  · exact bound _ ⟨by decide, by decide⟩ _ field lower
  · exact bound _ ⟨by decide, by decide⟩ _ field upper
  · exact ⟨by decide, by decide⟩

theorem readVar?_line {v : Var} (named : IsVariable v.name) : readVar? v.line = some v := by
  rw [readVar?, Var.line, fields_lineOf (Var.isTight_fields named)]
  obtain ⟨name, lower, upper⟩ := v
  cases lower <;> cases upper <;> simp [Var.fields, boundFields, readBounds, readWord_word]

/-- The fields of a constraint after its name. -/
def Constraint.sideFields (c : Constraint) : List (List Char) :=
  c.lhs.firstField :: c.lhs.furtherFields ++ ['='] :: c.rhs.firstField :: c.rhs.furtherFields

def Constraint.line (c : Constraint) : List Char :=
  lineOf "s.t.".toList ((c.name.toList ++ [':']) :: c.sideFields)

theorem Constraint.declaration_toList (c : Constraint) : c.declaration.toList = c.line ++ ['\n'] := by
  simp [Constraint.declaration, Constraint.text, Constraint.line, Constraint.sideFields, lineOf, Form.text_toList,
    String.toList_append]

section
variable {c : Constraint} (plain : IsPlain c.name) (named : ∀ t ∈ c.lhs.terms ++ c.rhs.terms, IsVariable t.var)
include plain named

theorem Constraint.isTight_fields :
    ∀ field ∈ "s.t.".toList :: (c.name.toList ++ [':']) :: c.sideFields, IsTight field := by
  have side : ∀ e : Form, (∀ t ∈ e.terms, IsVariable t.var) →
      ∀ field ∈ e.firstField :: e.furtherFields, IsTight field :=
    fun e named field member => isTight_of_all (isFormChar_fields named field member) (by decide) (by decide)
  have label := isTight_of_isPlain plain
  intro field member
  rcases List.mem_cons.mp member with rfl | member
  · exact ⟨by decide, by decide⟩
  rcases List.mem_cons.mp member with rfl | member
  · exact ⟨by simpa using label.1, by simpa using label.2⟩
  rcases List.mem_append.mp member with left | member
  · exact side c.lhs (fun t inside => named t (by simp [inside])) field left
  rcases List.mem_cons.mp member with rfl | right
  · exact ⟨by decide, by decide⟩
  · exact side c.rhs (fun t inside => named t (by simp [inside])) field right

theorem readConstraint?_line : readConstraint? c.line = some c := by
  have left : ∀ t ∈ c.lhs.terms, IsVariable t.var := fun t member => named t (by simp [member])
  have right : ∀ t ∈ c.rhs.terms, IsVariable t.var := fun t member => named t (by simp [member])
  have equals : ∀ e : Form, (∀ t ∈ e.terms, IsVariable t.var) → ['='] ∉ e.firstField :: e.furtherFields := by
    intro e named member
    exact absurd (isFormChar_fields named _ member '=' (by simp)) (by decide)
  have sides : c.sideFields.splitOn ['='] =
      [c.lhs.firstField :: c.lhs.furtherFields, c.rhs.firstField :: c.rhs.furtherFields] := by
    rw [Constraint.sideFields, List.splitOn_append_cons_self_of_not_mem (equals c.lhs left),
      List.splitOn_eq_singleton (equals c.rhs right)]
  rw [readConstraint?, Constraint.line, fields_lineOf (Constraint.isTight_fields plain named)]
  simp [sides, readForm_fields left, readForm_fields right]

end

/-! ### Models -/

namespace Model

def objectiveLine (m : Model) : List Char :=
  lineOf "maximize".toList [m.label.toList ++ [':'], m.objective.toList]

def displayLine (m : Model) : List Char :=
  ("display " ++ Text.joined ", " (m.vars.map Var.name) ++ ";").toList

/-- The lines below the objective and the empty line after it. -/
def lowerLines (m : Model) : List (List Char) :=
  m.constraints.map Constraint.line ++ [solveLine, m.displayLine, "end;".toList]

def lines (m : Model) : List (List Char) :=
  m.vars.map Var.line ++ [] :: m.objectiveLine :: [] :: m.lowerLines

theorem text_toList (m : Model) : m.text.toList = m.lines.flatMap (· ++ ['\n']) := by
  have declarations : (m.vars.flatMap Var.pieces).flatMap String.toList =
      (m.vars.map Var.line).flatMap (· ++ ['\n']) := by
    simp [List.flatMap_assoc, List.flatMap_map, Var.pieces_toList]
  have constraints : (m.constraints.map Constraint.declaration).flatMap String.toList =
      (m.constraints.map Constraint.line).flatMap (· ++ ['\n']) := by
    simp [List.flatMap_map, Constraint.declaration_toList]
  simp [Model.text, Model.pieces, toList_concat, lines, lowerLines, objectiveLine, displayLine, solveLine, lineOf,
    String.toList_append, declarations, constraints]

variable {m : Model} (named : m.WellNamed)
include named

theorem isTight_objective :
    ∀ field ∈ ["maximize".toList, m.label.toList ++ [':'], m.objective.toList], IsTight field := by
  have label := isTight_of_isPlain named.label
  intro field member
  simp only [List.mem_cons, List.not_mem_nil, or_false] at member
  rcases member with rfl | rfl | rfl
  · exact ⟨by decide, by decide⟩
  · exact ⟨by simpa using label.1, by simpa using label.2⟩
  · exact isTight_of_isPlain named.objective

theorem lineEnd_not_mem_displayLine : '\n' ∉ m.displayLine := by
  have name : ∀ v ∈ m.vars, '\n' ∉ v.name.toList := fun v member => (isTight_of_isPlain (named.vars v member).plain).2
  rw [displayLine]
  cases vars : m.vars with
  | nil => decide
  | cons v rest =>
    rw [vars] at name
    simp only [List.map_cons, Text.joined, String.toList_append, toList_concat, List.mem_append, List.mem_flatMap,
      List.mem_map]
    rintro ((keyword | first | ⟨_, ⟨_, ⟨w, member, rfl⟩, rfl⟩, later⟩) | ending)
    · exact absurd keyword (by decide)
    · exact name v (by simp) first
    · simp only [String.toList_append, List.mem_append] at later
      exact later.elim (fun comma => absurd comma (by decide)) (name w (by simp [member]))
    · exact absurd ending (by decide)

theorem lineEnd_not_mem_lines : ∀ line ∈ m.lines, '\n' ∉ line := by
  intro line member
  simp only [lines, lowerLines, List.mem_append, List.mem_cons, List.mem_map, List.not_mem_nil, or_false] at member
  rcases member with ⟨v, declared, rfl⟩ | rfl | rfl | rfl | ⟨c, stated, rfl⟩ | rfl | rfl | rfl
  · exact lineEnd_not_mem_lineOf (Var.isTight_fields (named.vars v declared))
  · simp
  · exact lineEnd_not_mem_lineOf (isTight_objective named)
  · simp
  · exact lineEnd_not_mem_lineOf (Constraint.isTight_fields (named.constraints c stated) (named.terms c stated))
  · decide
  · exact lineEnd_not_mem_displayLine named
  · decide

/-- Splitting recovers the lines, and the empty ones among them tell the parts of the text apart. -/
theorem parts_text :
    (m.text.toList.splitOn '\n').splitOn [] = [m.vars.map Var.line, [m.objectiveLine], m.lowerLines, []] := by
  have declarations : [] ∉ m.vars.map Var.line := by
    simp [Var.line, lineOf_ne_nil]
  have objective : [] ∉ [m.objectiveLine] := by
    simp [objectiveLine, lineOf]
  have lower : [] ∉ m.lowerLines := by
    simp [lowerLines, Constraint.line, lineOf_ne_nil, solveLine, displayLine, String.toList_append]
  have shape : m.lines ++ [[]] =
      m.vars.map Var.line ++ [] :: ([m.objectiveLine] ++ [] :: (m.lowerLines ++ [] :: [])) := by
    simp [lines]
  rw [text_toList, splitOn_terminated (lineEnd_not_mem_lines named), shape,
    List.splitOn_append_cons_self_of_not_mem declarations, List.splitOn_append_cons_self_of_not_mem objective,
    List.splitOn_append_cons_self_of_not_mem lower]
  rfl

theorem readModel?_text : readModel? m.text = some m := by
  have constraints : m.lowerLines.takeWhile (· ≠ solveLine) = m.constraints.map Constraint.line := by
    have other : ∀ line ∈ m.constraints.map Constraint.line, decide (line ≠ solveLine) = true := by
      intro line member
      obtain ⟨c, _, rfl⟩ := List.mem_map.mp member
      simp [Constraint.line, lineOf, solveLine]
    rw [lowerLines, List.takeWhile_append_of_pos other, List.takeWhile_cons_of_neg (by simp), List.append_nil]
  have objective : fields m.objectiveLine = ["maximize".toList, m.label.toList ++ [':'], m.objective.toList] :=
    fields_lineOf (isTight_objective named)
  rw [readModel?, parts_text named]
  simp only [objective, constraints, mapM_map_eq_some fun v member => readVar?_line (named.vars v member),
    mapM_map_eq_some fun c member => readConstraint?_line (named.constraints c member) (named.terms c member)]
  simp

end Model

/-! ### Writing -/

theorem Model.writeTo_sound (m : Model) (limit : Option Nat) :
    (m.writeTo { sink := { limit } }).1.Sound limit (m.writeTo { sink := { limit } }).2 m.text.toUTF8 ∧
      ((m.writeTo { sink := { limit } }).1.failed = false → (m.writeTo { sink := { limit } }).1.pending = .empty) := by
  have start : Counter.Sound limit { buffer := { sink := { limit } } } .empty := ⟨Buffer.sound_empty limit, rfl⟩
  have sound := start.foldl m.pieces
  rw [ByteArray.empty_append] at sound
  rw [Model.writeTo]
  dsimp only
  split
  · rename_i failed
    rw [sound.failed] at failed
    refine ⟨sound.buffer, fun works => ?_⟩
    rw [failed] at works
    cases works
  · exact ⟨sound.buffer.flush, Buffer.pending_flush⟩

/-- A model is written as a whole and all its bytes are counted, or the writer fails after the first bytes. -/
theorem Model.write_cases (m : Model) (limit : Option Nat) :
    ((m.write limit).failed = false ∧ (m.write limit).text = m.text ∧
      (m.write limit).count = m.text.utf8ByteSize ∧ ∀ room, limit = some room → m.text.utf8ByteSize ≤ room) ∨
    ∃ room, limit = some room ∧ (m.write limit).failed = true ∧ room < m.text.utf8ByteSize ∧
      (m.write limit).text = Text.firstBytes m.text room ∧
      room ≤ (m.write limit).count ∧ (m.write limit).count ≤ m.text.utf8ByteSize := by
  obtain ⟨sound, flushed⟩ := m.writeTo_sound limit
  rw [Model.write]
  dsimp only
  cases failed : (m.writeTo { sink := { limit } }).1.failed with
  | false =>
    obtain ⟨content, counted, within⟩ := sound.working failed
    rw [flushed failed, ByteArray.append_empty] at content
    rw [content] at within ⊢
    exact .inl ⟨rfl, Text.decoded_toUTF8 _, counted, within⟩
  | true =>
    obtain ⟨room, isLimit, less, least, taken⟩ := sound.broken failed
    rw [taken]
    exact .inr ⟨room, isLimit, rfl, less, rfl, least, sound.counted⟩

/-- The text of a well-named model determines it: the reader recovers the model from what is written, so no other
    well-named model is written the same way. What is counted as written is the length of the text, whenever the
    writer takes all of it. -/
theorem text_determines_model (m : Model) :
    (m.WellNamed → readModel? (m.write none).text = some m ∧
      ∀ other : Model, other.WellNamed → (other.write none).text = (m.write none).text → other = m) ∧
    (m.write none).failed = false ∧
    (∀ limit, (m.write limit).failed = false →
      (m.write limit).text = m.text ∧ (m.write limit).count = (m.write limit).text.utf8ByteSize) ∧
    ∀ room, (m.write (some room)).failed = true ↔ room < m.text.utf8ByteSize := by
  have unlimited : ∀ m : Model, (m.write none).failed = false ∧ (m.write none).text = m.text := by
    intro m
    rcases m.write_cases none with ⟨works, text, _⟩ | ⟨room, absent, _⟩
    · exact ⟨works, text⟩
    · cases absent
  refine ⟨fun named => ⟨?_, fun other otherNamed same => ?_⟩, (unlimited m).1, fun limit works => ?_, fun room => ?_⟩
  · rw [(unlimited m).2]
    exact m.readModel?_text named
  · rw [(unlimited m).2, (unlimited other).2] at same
    have read := other.readModel?_text otherNamed
    rw [same, m.readModel?_text named] at read
    exact (Option.some.inj read).symm
  · rcases m.write_cases limit with ⟨_, text, count, _⟩ | ⟨_, _, failed, _⟩
    · exact ⟨text, count.trans (congrArg String.utf8ByteSize text.symm)⟩
    · rw [works] at failed
      cases failed
  · rcases m.write_cases (some room) with ⟨works, _, _, fits⟩ | ⟨_, same, failed, less, _⟩
    · simpa [works] using fits room rfl
    · cases same
      simp [failed, less]

/-- Least words as coefficients, constants and bounds, signs at the front and between terms, unit and zero
    coefficients, forms without terms, and empty names where they are allowed. -/
def extremes : Model where
  label := "obj_1"
  vars := [⟨"i", some Int64.minValue, none⟩, ⟨"_j2", none, some 5⟩, ⟨"integer", some 0, some 9⟩, ⟨"x", none, none⟩]
  objective := ""
  constraints :=
    [⟨"eqn0", ⟨[⟨Int64.minValue, "i"⟩, ⟨-1, "_j2"⟩, ⟨Int64.minValue, "x"⟩], Int64.minValue⟩, ⟨[], Int64.minValue⟩⟩,
      ⟨"", ⟨[⟨1, "integer"⟩, ⟨0, "x"⟩], 7⟩, ⟨[⟨-3, "x"⟩, ⟨1, "solve"⟩], 0⟩⟩]

theorem extremes_read : extremes.WellNamed ∧ readModel? (extremes.write none).text = some extremes ∧
    (extremes.write none).count = (extremes.write none).text.utf8ByteSize := by
  have named : extremes.WellNamed := ⟨by decide, by decide, by decide, by decide, by decide⟩
  obtain ⟨determines, unlimited, counted, _⟩ := text_determines_model extremes
  exact ⟨named, (determines named).1, (counted none unlimited).2⟩

end LoopConflict.Linear
