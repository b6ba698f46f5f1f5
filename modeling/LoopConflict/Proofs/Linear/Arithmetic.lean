import LoopConflict.Proofs.Linear.Normalize
import LoopConflict.Proofs.Linear.Reading

/-!
The text of a linear form as integer arithmetic. A text is cut into numbers, names and signs (`tokens`), and these
are added up: a number, a variable or a number times a variable after each sign, where further minus signs negate
(`sumValue?`). The text of every form has a value. It is the value of the form as long as no sign is split off the
least word, which has no word without its sign: that one is written with two signs and read with the opposite one
(`text_value_iff`).
-/
namespace LoopConflict.Linear

/-! ### Arithmetic in texts -/

/-- The parts of a text. -/
inductive Token where
  | number (n : Nat)
  | name (s : String)
  | plus
  | minus
  | times
deriving DecidableEq, Repr

/-- The parts of a text, which blanks separate. A number goes on as long as there are digits, and a name as long as
    there are characters of names. -/
def tokens : List Char → Option (List Token)
  | [] => some []
  | c :: rest =>
    if c = ' ' then tokens rest
    else if c = '+' then (tokens rest).map (.plus :: ·)
    else if c = '-' then (tokens rest).map (.minus :: ·)
    else if c = '*' then (tokens rest).map (.times :: ·)
    else if c.isDigit then
      (tokens (rest.dropWhile Char.isDigit)).map
        (.number (Nat.ofDigitChars 10 (c :: rest.takeWhile Char.isDigit) 0) :: ·)
    else if IsNameChar c then
      (tokens (rest.dropWhile fun d => IsNameChar d)).map
        (.name (String.ofList (c :: rest.takeWhile fun d => IsNameChar d)) :: ·)
    else none
termination_by text => text.length
decreasing_by
  all_goals
    have shorter (p : Char → Bool) := (List.dropWhile_sublist (l := rest) p).length_le
    have := shorter Char.isDigit
    have := shorter fun d => IsNameChar d
    simp only [List.length_cons]
    omega

mutual

/-- Adds the summand that comes next, with a sign, to what stands before it, and goes on. -/
def sumValue? (v : String → Int) (before sign : Int) : List Token → Option Int
  | .minus :: rest => sumValue? v before (-sign) rest
  | .number n :: .times :: .name x :: rest => furtherValue? v (before + sign * (n * v x)) rest
  | .number n :: rest => furtherValue? v (before + sign * n) rest
  | .name x :: rest => furtherValue? v (before + sign * v x) rest
  | _ => none

/-- Adds the further summands, each after its sign. -/
def furtherValue? (v : String → Int) (before : Int) : List Token → Option Int
  | [] => some before
  | .plus :: rest => sumValue? v before 1 rest
  | .minus :: rest => sumValue? v before (-1) rest
  | _ => none

end

/-- The value of a text where every name has a value; none if it is not made of sums and differences. -/
def textValue? (v : String → Int) (text : String) : Option Int :=
  (tokens text.toList).bind (sumValue? v 0 1)

/-! ### Numbers and names -/

theorem span_append_of_stops (p : Char → Bool) {cs r : List Char} (all : ∀ c ∈ cs, p c = true)
    (stops : ∀ c, r.head? = some c → p c = false) :
    (cs ++ r).takeWhile p = cs ∧ (cs ++ r).dropWhile p = r := by
  rw [List.takeWhile_append_of_pos all, List.dropWhile_append_of_pos all]
  cases r with
  | nil => simp
  | cons c r => simp [stops c rfl]

theorem tokens_natChars (n : Nat) {r : List Char} (stops : Text.Stops r) :
    tokens (Text.natChars n ++ r) = (tokens r).map (.number n :: ·) := by
  have value : Nat.ofDigitChars 10 (Text.natChars n) 0 = n := Nat.ofDigitChars_ten_toDigits
  have all : ∀ c ∈ Text.natChars n, c.isDigit = true := fun c => Text.isDigit_of_mem_natChars
  obtain ⟨c, rest, text, digit⟩ := Text.exists_natChars n
  rw [text] at value all ⊢
  have digits : ∀ d ∈ rest, d.isDigit = true := fun d member => all d (by simp [member])
  obtain ⟨taken, left⟩ := span_append_of_stops Char.isDigit digits stops
  have noSign : c ≠ ' ' ∧ c ≠ '+' ∧ c ≠ '-' ∧ c ≠ '*' := by
    refine ⟨?_, ?_, ?_, ?_⟩ <;> rintro rfl <;> exact absurd digit (by decide)
  rw [List.cons_append, tokens]
  simp [noSign, digit, taken, left, value]

/-- The text does not go on with a character of names. -/
def Ends (r : List Char) : Prop :=
  ∀ c, r.head? = some c → ¬ IsNameChar c

theorem Ends.stops {r : List Char} (ends : Ends r) : Text.Stops r :=
  fun c first => Bool.eq_false_iff.mpr fun digit => ends c first (isNameChar_of_isDigit digit)

theorem tokens_name {name : String} (named : IsVariable name) {r : List Char} (ends : Ends r) :
    tokens (name.toList ++ r) = (tokens r).map (.name name :: ·) := by
  obtain ⟨c, rest, text, front⟩ := named.front
  have all : ∀ d ∈ c :: rest, IsNameChar d := text ▸ named.plain
  have allowed := all c (by simp)
  have plain : ∀ d ∈ rest, decide (IsNameChar d) = true := fun d member => by simpa using all d (by simp [member])
  obtain ⟨taken, left⟩ := span_append_of_stops (fun d => IsNameChar d) plain fun d first => by simpa using ends d first
  have noSign : c ≠ ' ' ∧ c ≠ '+' ∧ c ≠ '-' ∧ c ≠ '*' := by
    refine ⟨?_, ?_, ?_, ?_⟩ <;> rintro rfl <;> exact absurd allowed (by decide)
  have whole : String.ofList (c :: rest) = name := by rw [← text, String.ofList_toList]
  rw [text, List.cons_append, tokens]
  simp [noSign, front, allowed, taken, left, whole]

/-- The parts of the text of an integer. -/
def intTokens : Int → List Token
  | .ofNat n => [.number n]
  | .negSucc n => [.minus, .number (n + 1)]

theorem tokens_minus (r : List Char) : tokens ('-' :: r) = (tokens r).map (.minus :: ·) := by
  rw [tokens]
  simp

theorem tokens_plus (r : List Char) : tokens ('+' :: r) = (tokens r).map (.plus :: ·) := by
  rw [tokens]
  simp

theorem tokens_times (r : List Char) : tokens ('*' :: r) = (tokens r).map (.times :: ·) := by
  rw [tokens]
  simp

theorem tokens_blank (r : List Char) : tokens (' ' :: r) = tokens r := by
  rw [tokens]
  simp

theorem tokens_word (n : Int64) {r : List Char} (stops : Text.Stops r) :
    tokens ((Text.word n).toList ++ r) = (tokens r).map (intTokens n.toInt ++ ·) := by
  rw [Text.word, Text.int, String.toList_ofList]
  cases n.toInt with
  | ofNat k => exact tokens_natChars k stops
  | negSucc k =>
    rw [Text.intChars, List.cons_append, tokens_minus, tokens_natChars (k + 1) stops, Option.map_map]
    rfl

/-! ### Summands -/

section

variable (v : String → Int) (before sign : Int)

theorem sumValue?_scaled (n : Int) (x : String) (rest : List Token) :
    sumValue? v before sign (intTokens n ++ .times :: .name x :: rest) =
      furtherValue? v (before + sign * (n * v x)) rest := by
  cases n with
  | ofNat k => simp [intTokens, sumValue?]
  | negSucc k =>
    have negated : -sign * (((k + 1 : Nat) : Int) * v x) = sign * (Int.negSucc k * v x) := by
      rw [Int.negSucc_eq]
      push_cast
      ring
    simp only [intTokens, List.cons_append, List.nil_append, sumValue?, negated]

theorem sumValue?_number (n : Int) : sumValue? v before sign (intTokens n) = some (before + sign * n) := by
  cases n with
  | ofNat k => simp [intTokens, sumValue?, furtherValue?]
  | negSucc k =>
    have negated : -sign * ((k + 1 : Nat) : Int) = sign * Int.negSucc k := by
      rw [Int.negSucc_eq]
      push_cast
      ring
    simp only [intTokens, sumValue?, furtherValue?, negated]

/-- A term without its sign is the variable times the word that is left of the coefficient. -/
theorem value_body {t : Term} (named : IsVariable t.var) {r : List Char} (ends : Ends r) :
    (tokens (t.body.toList ++ r)).bind (sumValue? v before sign) =
      (tokens r).bind (furtherValue? v (before + sign * ((magnitude t.coeff).toInt * v t.var))) := by
  rw [Term.body]
  by_cases unit : magnitude t.coeff = 1
  · rw [if_pos unit, tokens_name named ends, Option.bind_map, unit]
    refine Option.bind_congr fun rest _ => ?_
    simp [sumValue?]
  · have stops : Text.Stops ('*' :: (t.var.toList ++ r)) := Text.stops_cons (by decide) _
    have text : (Text.word (magnitude t.coeff) ++ "*" ++ t.var).toList ++ r =
        (Text.word (magnitude t.coeff)).toList ++ '*' :: (t.var.toList ++ r) := by
      simp [String.toList_append]
    rw [if_neg unit, text, tokens_word _ stops, tokens_times, tokens_name named ends, Option.map_map, Option.map_map,
      Option.bind_map]
    exact Option.bind_congr fun rest _ => sumValue?_scaled v before sign _ t.var rest

end

/-- What a word is read as if it is written as its sign and its magnitude. -/
def shown (n : Int64) : Int :=
  if n < 0 then -(magnitude n).toInt else (magnitude n).toInt

/-- The least word has no magnitude, and is read with the other sign. -/
theorem shown_eq (n : Int64) : shown n = n.toInt + 2 ^ 64 * if n = Int64.minValue then 1 else 0 := by
  by_cases least : n = Int64.minValue
  · subst least
    rfl
  · rw [shown, magnitude, if_neg least]
    split <;> simp [Word.toInt_neg_of_ne least]

section

variable (v : String → Int)

theorem value_leading {t : Term} (named : IsVariable t.var) {r : List Char} (ends : Ends r) :
    (tokens (t.leading.toList ++ r)).bind (sumValue? v 0 1) =
      (tokens r).bind (furtherValue? v (shown t.coeff * v t.var)) := by
  rw [Term.leading, shown]
  split
  · have value := value_body v 0 (-1) named ends
    rw [String.toList_append, List.append_assoc, show "-".toList = ['-'] from rfl, List.singleton_append, tokens_minus,
      Option.bind_map]
    simpa [Function.comp_def, sumValue?] using value
  · simpa using value_body v 0 1 named ends

/-- What follows on a sign is added or subtracted. -/
theorem value_signField (n : Int64) (r : List Char) (before : Int) :
    (tokens (' ' :: signField n ++ ' ' :: r)).bind (furtherValue? v before) =
      (tokens r).bind (sumValue? v before (if n < 0 then -1 else 1)) := by
  rw [signField]
  split
  · simp only [List.cons_append, List.nil_append, tokens_blank, tokens_minus, Option.bind_map]
    exact Option.bind_congr fun rest _ => rfl
  · simp only [List.cons_append, List.nil_append, tokens_blank, tokens_plus, Option.bind_map]
    exact Option.bind_congr fun rest _ => rfl

theorem sign_mul_magnitude (n : Int64) : (if n < 0 then -1 else 1) * (magnitude n).toInt = shown n := by
  rw [shown]
  split <;> simp

theorem value_constFields (n : Int64) (before : Int) :
    (tokens ((constFields n).flatMap (' ' :: ·))).bind (furtherValue? v before) = some (before + shown n) := by
  rw [constFields]
  split
  · rename_i zero
    simp [tokens, furtherValue?, zero, shown, magnitude]
  · have text := tokens_word (magnitude n) Text.stops_nil
    rw [List.append_nil, tokens, Option.map_some, List.append_nil] at text
    simp only [List.flatMap_cons, List.flatMap_nil, List.append_nil]
    rw [value_signField, text, Option.bind_some, sumValue?_number, sign_mul_magnitude]

end

/-! ### Forms -/

theorem ends_fields (fields : List (List Char)) : Ends (fields.flatMap (' ' :: ·)) := by
  intro c first
  cases fields with
  | nil => cases first
  | cons field rest =>
    cases first
    decide

theorem value_furtherFields (v : String → Int) {terms : List Term} (named : ∀ t ∈ terms, IsVariable t.var) (n : Int64)
    (before : Int) :
    (tokens (((terms.flatMap fun t => [signField t.coeff, t.body.toList]) ++ constFields n).flatMap (' ' :: ·))).bind
      (furtherValue? v before) = some (before + (terms.map fun t => shown t.coeff * v t.var).sum + shown n) := by
  induction terms generalizing before with
  | nil => simpa using value_constFields v n before
  | cons t rest ih =>
    obtain ⟨here, later⟩ := List.forall_mem_cons.mp named
    simp only [List.flatMap_cons, List.cons_append, List.nil_append, List.map_cons, List.sum_cons]
    rw [← List.cons_append, value_signField, value_body v before _ here (ends_fields _), ih later, ← Int.mul_assoc,
      sign_mul_magnitude, Int.add_assoc before]

/-- What the text of a form is read as: signs are split off all words but a constant that stands alone. -/
def Form.shownValue (v : String → Int) (e : Form) : Int :=
  match e.terms with
  | [] => e.const.toInt
  | terms => (terms.map fun t => shown t.coeff * v t.var).sum + shown e.const

theorem textValue?_text (v : String → Int) {e : Form} (named : ∀ t ∈ e.terms, IsVariable t.var) :
    textValue? v e.text = some (e.shownValue v) := by
  obtain ⟨terms, const⟩ := e
  rw [textValue?, Form.text_toList]
  cases terms with
  | nil =>
    have text := tokens_word const Text.stops_nil
    rw [tokens, Option.map_some, List.append_nil] at text
    simp [Form.firstField, Form.furtherFields, text, sumValue?_number, Form.shownValue]
  | cons t rest =>
    obtain ⟨here, later⟩ := List.forall_mem_cons.mp named
    simp only [Form.firstField, Form.furtherFields, Form.shownValue]
    rw [value_leading v here (ends_fields _), value_furtherFields v later, List.map_cons, List.sum_cons]

/-- The variables whose coefficient is the least word, and one for the constant if a sign is split off it. -/
def Form.turned (v : String → Int) (e : Form) : Int :=
  ((e.terms.filter (·.coeff = Int64.minValue)).map fun t => v t.var).sum +
    if e.terms ≠ [] ∧ e.const = Int64.minValue then 1 else 0

theorem sum_shown (v : String → Int) (terms : List Term) : (terms.map fun t => shown t.coeff * v t.var).sum =
    (terms.map fun t => t.coeff.toInt * v t.var).sum +
      2 ^ 64 * ((terms.filter (·.coeff = Int64.minValue)).map fun t => v t.var).sum := by
  induction terms with
  | nil => simp
  | cons t rest ih =>
    rw [List.map_cons, List.sum_cons, ih, shown_eq]
    by_cases least : t.coeff = Int64.minValue
    · simp [least]
      ring
    · simp [least]
      ring

theorem Form.shownValue_eq (v : String → Int) (e : Form) : e.shownValue v = e.value v + 2 ^ 64 * e.turned v := by
  obtain ⟨terms, const⟩ := e
  cases terms with
  | nil => simp [Form.shownValue, Form.value, Form.turned]
  | cons t rest =>
    have some : t :: rest ≠ [] := by simp
    simp only [Form.shownValue, Form.value, Form.turned, some, ne_eq, not_false_eq_true, true_and]
    rw [sum_shown, shown_eq]
    ring

/-- No sign is split off a least word: no coefficient is one, and neither is a constant after other terms. -/
def Form.Signed (e : Form) : Prop :=
  (∀ t ∈ e.terms, t.coeff ≠ Int64.minValue) ∧ (e.terms = [] ∨ e.const ≠ Int64.minValue)

theorem Form.turned_of_signed {e : Form} (signed : e.Signed) (v : String → Int) : e.turned v = 0 := by
  have none : e.terms.filter (·.coeff = Int64.minValue) = [] :=
    List.filter_eq_nil_iff.mpr fun t member => by simpa using signed.1 t member
  have constant : ¬ (e.terms ≠ [] ∧ e.const = Int64.minValue) := by
    rintro ⟨some, least⟩
    exact signed.2.elim some fun other => other least
  rw [Form.turned, none, if_neg constant]
  rfl

/-- Where all variables are one, each sign that turns around is seen. -/
theorem Form.signed_of_turned {e : Form} (same : e.turned (fun _ => 1) = 0) : e.Signed := by
  have count : (((e.terms.filter (·.coeff = Int64.minValue)).map fun _ => (1 : Int))).sum =
      (e.terms.filter (·.coeff = Int64.minValue)).length := by
    simp
  rw [Form.turned, count] at same
  split at same
  · omega
  · rename_i constant
    have none : e.terms.filter (·.coeff = Int64.minValue) = [] := List.eq_nil_of_length_eq_zero (by omega)
    refine ⟨fun t member => by simpa using List.filter_eq_nil_iff.mp none t member, ?_⟩
    by_cases empty : e.terms = []
    · exact .inl empty
    · exact .inr fun least => constant ⟨empty, least⟩

/-- The text of a form is read as its value, except that least words turn their sign around: the variables that have
    one as coefficient and a constant after other terms. So it means the form exactly if there are none of these. -/
theorem text_value_iff (e : Form) (named : ∀ t ∈ e.terms, IsVariable t.var) :
    (∀ v, textValue? v e.text = some (e.value v + 2 ^ 64 * e.turned v)) ∧
    ((∀ v, textValue? v e.text = some (e.value v)) ↔ e.Signed) := by
  have read (v : String → Int) : textValue? v e.text = some (e.value v + 2 ^ 64 * e.turned v) := by
    rw [textValue?_text v named, e.shownValue_eq v]
  refine ⟨read, fun all => Form.signed_of_turned ?_, fun signed v => ?_⟩
  · have ones := (read fun _ => 1).symm.trans (all fun _ => 1)
    rw [Option.some.injEq] at ones
    omega
  · rw [read v, Form.turned_of_signed signed v, Int.mul_zero, Int.add_zero]

/-- A first term, a later one and a constant that are the least word, and other terms between them. -/
def leastWords : Form :=
  ⟨[⟨Int64.minValue, "x"⟩, ⟨-1, "y"⟩, ⟨Int64.minValue, "z"⟩, ⟨3, "x"⟩], Int64.minValue⟩

theorem leastWords_turned :
    leastWords.text = "--9223372036854775808*x - y - -9223372036854775808*z + 3*x - -9223372036854775808" ∧
    (∀ v, leastWords.value v = -9223372036854775808 * v "x" - v "y" - 9223372036854775808 * v "z" + 3 * v "x" -
      9223372036854775808) ∧
    (∀ v, textValue? v leastWords.text = some (leastWords.value v + 2 ^ 64 * (v "x" + v "z" + 1))) ∧
    ¬ ∀ v, textValue? v leastWords.text = some (leastWords.value v) := by
  have named : ∀ t ∈ leastWords.terms, IsVariable t.var := by decide
  have least : leastWords.terms.filter (·.coeff = Int64.minValue) = [⟨Int64.minValue, "x"⟩, ⟨Int64.minValue, "z"⟩] := by
    decide
  obtain ⟨read, iff⟩ := text_value_iff leastWords named
  refine ⟨by decide +kernel, fun v => ?_, fun v => ?_, ?_⟩
  · simp [leastWords, Form.value]
    ring
  · rw [read v, Form.turned, least]
    simp [leastWords]
  · intro all
    exact (iff.mp all).1 ⟨Int64.minValue, "x"⟩ (by simp [leastWords]) rfl

end LoopConflict.Linear
