import LoopConflict.Text.Literal

/-!
Strings, numbers and dates of a TOML document. Each reader gives what it read and the rest of the
text, or nothing if the text is not well formed.
-/
namespace LoopConflict.Toml

/-- A blank inside of a line. -/
def isBlank (c : Char) : Bool :=
  c = ' ' || c = '\t'

/-- A character that ends a line. -/
def isLineEnd (c : Char) : Bool :=
  c = '\n' || c = '\r'

def isHexDigit (c : Char) : Bool :=
  c.isDigit || ('a' ≤ c && c ≤ 'f') || ('A' ≤ c && c ≤ 'F')

/-! ### Strings -/

/-- The character with a given code point, if there is one. -/
def charOfCode? (n : Nat) : Option Char :=
  if n < 0xD800 || (0xDFFF < n && n < 0x110000) then some (Char.ofNat n) else none

/-- The number that hexadecimal digits stand for. -/
def hexValue (cs : List Char) : Nat :=
  cs.foldl (fun n c => 16 * n + (Text.digitValue? c).getD 0) 0

/-- The character that the hexadecimal digits of an escape stand for. -/
def charOfHex? (cs : List Char) : Option Char :=
  if cs.all isHexDigit then charOfCode? (hexValue cs) else none

/-- The character that a backslash and a letter stand for. -/
def shortEscape? : Char → Option Char
  | 'b' => some (Char.ofNat 8)
  | 't' => some '\t'
  | 'n' => some '\n'
  | 'f' => some (Char.ofNat 12)
  | 'r' => some '\r'
  | '"' => some '"'
  | '\\' => some '\\'
  | _ => none

/-- Replaces the escapes of a string. -/
def unescape : List Char → Option (List Char)
  | [] => some []
  | '\\' :: 'u' :: a :: b :: c :: d :: rest => do
    let x ← charOfHex? [a, b, c, d]
    return x :: (← unescape rest)
  | '\\' :: 'U' :: a :: b :: c :: d :: e :: f :: g :: h :: rest => do
    let x ← charOfHex? [a, b, c, d, e, f, g, h]
    return x :: (← unescape rest)
  | '\\' :: c :: rest => do
    let x ← shortEscape? c
    return x :: (← unescape rest)
  | ['\\'] => none
  | c :: rest => do return c :: (← unescape rest)

/-- The inside of a string of one line up to its closing quote, escapes as they stand. -/
def basicBody : List Char → Option (List Char × List Char)
  | [] => none
  | '"' :: rest => some ([], rest)
  | '\\' :: c :: rest =>
    if isLineEnd c then none
    else do
      let (body, rest) ← basicBody rest
      return ('\\' :: c :: body, rest)
  | c :: rest =>
    if isLineEnd c then none
    else do
      let (body, rest) ← basicBody rest
      return (c :: body, rest)

/-- A string of one line, after its opening quote. -/
def basicString (cs : List Char) : Option (String × List Char) := do
  let (body, rest) ← basicBody cs
  return (String.ofList (← unescape body), rest)

/-- A literal string of one line, after its opening quote. -/
def literalString (cs : List Char) : Option (String × List Char) :=
  let body := cs.takeWhile fun c => c ≠ '\'' && !isLineEnd c
  match cs.drop body.length with
  | '\'' :: rest => some (String.ofList body, rest)
  | _ => none

/-- The two last characters before the closing quotes are quotes themselves: with one more there are too
    many. A backslash before them makes the first one part of an escape. -/
def tooManyQuotes (quote : Char) (escapes : Bool) (before : List Char) : Bool :=
  match before with
  | a :: b :: rest => a = quote && b = quote && !(escapes && rest.head? == some '\\')
  | _ => false

/-- The inside of a string of several lines up to its closing quotes, escapes as they stand. Up to two
    quotes may stand before the closing ones. `before` holds what was read, the last character first. -/
def multilineBody (quote : Char) (escapes : Bool) : (before : List Char) → List Char →
    Option (List Char × List Char)
  | _, [] => none
  | before, c :: rest =>
    if escapes && c = '\\' then
      match rest with
      | [] => none
      | d :: rest => multilineBody quote escapes (d :: c :: before) rest
    else if c = quote then
      match rest with
      | a :: b :: after =>
        if a = quote && b = quote then
          if after.head? == some quote then
            if tooManyQuotes quote escapes before then none
            else multilineBody quote escapes (c :: before) (a :: b :: after)
          else some (before.reverse, after)
        else multilineBody quote escapes (c :: before) (a :: b :: after)
      | rest => multilineBody quote escapes (c :: before) rest
    else multilineBody quote escapes (c :: before) rest

/-- A line end right after the opening quotes does not count. -/
def dropFirstLineEnd : List Char → List Char
  | '\n' :: rest => rest
  | '\r' :: '\n' :: rest => rest
  | cs => cs

/-- A backslash at the end of a line takes away the line end and all blanks and line ends after it. -/
def joinLines (cs : List Char) : List Char :=
  match cs with
  | [] => []
  | '\\' :: '\\' :: rest => '\\' :: '\\' :: joinLines rest
  | '\\' :: rest =>
    let gap := rest.takeWhile fun c => isBlank c || isLineEnd c
    if gap.contains '\n' then joinLines (rest.drop gap.length) else '\\' :: joinLines rest
  | c :: rest => c :: joinLines rest
termination_by cs.length
decreasing_by all_goals simp_all; try omega

/-- A string of several lines, after its opening quotes. -/
def multilineString (cs : List Char) : Option (String × List Char) := do
  let (body, rest) ← multilineBody '"' true [] cs
  return (String.ofList (← unescape (joinLines (dropFirstLineEnd body))), rest)

/-- A literal string of several lines, after its opening quotes. -/
def multilineLiteral (cs : List Char) : Option (String × List Char) := do
  let (body, rest) ← multilineBody '\'' false [] cs
  return (String.ofList (dropFirstLineEnd body), rest)

/-! ### Numbers -/

/-- Every underscore follows a digit, and a digit is last. -/
def underscoresInside : (after : Bool) → List Char → Bool
  | after, [] => after
  | after, c :: rest => (c ≠ '_' || after) && underscoresInside (isHexDigit c) rest

/-- A zero stands before other digits. -/
def hasLeadingZero : List Char → Bool
  | '0' :: c :: _ => c ≠ 'b' && c ≠ 'o' && c ≠ 'x'
  | s :: '0' :: _ :: _ => s = '+' || s = '-'
  | _ => false

/-- Reads the text of an integer. -/
def integerOf? (cs : List Char) : Option Int64 :=
  if underscoresInside false cs && !hasLeadingZero cs then
    (Text.readInteger (String.ofList cs)).toOption
  else none

/-- The parts of a float between points and exponent marks. -/
def floatParts : List Char → List (List Char)
  | [] => [[]]
  | c :: rest =>
    let parts := floatParts rest
    if c = '.' || c = 'e' || c = 'E' then [] :: parts
    else match parts with
      | part :: others => (c :: part) :: others
      | [] => [[c]]

/-- A digit follows every point. -/
def pointsInside : List Char → Bool
  | [] => true
  | '.' :: rest => (rest.head?.any Char.isDigit) && pointsInside rest
  | _ :: rest => pointsInside rest

/-- Drops a sign. -/
def unsigned : List Char → List Char
  | '+' :: rest => rest
  | '-' :: rest => rest
  | cs => cs

/-- The digits at the front, and the rest. -/
def spanDigits (cs : List Char) : List Char × List Char :=
  cs.span Char.isDigit

/-- The number that decimal digits stand for. -/
def digitsValue (cs : List Char) : Nat :=
  cs.foldl (fun n c => 10 * n + (c.toNat - '0'.toNat)) 0

/-- The mantissa, the number of its decimal places and the exponent of a decimal number. -/
def decimalParts? (cs : List Char) : Option (Nat × Nat × Int) := do
  let (whole, rest) := spanDigits (unsigned cs)
  let (fraction, rest) := match rest with
    | '.' :: rest => spanDigits rest
    | rest => ([], rest)
  if whole.isEmpty && fraction.isEmpty then none
  let mantissa := digitsValue (whole ++ fraction)
  match rest with
  | [] => return (mantissa, fraction.length, 0)
  | c :: rest =>
    if c = 'e' || c = 'E' then
      let (digits, after) := spanDigits (unsigned rest)
      if digits.isEmpty || !after.isEmpty then none
      else
        let n := digitsValue digits
        return (mantissa, fraction.length, if rest.head? == some '-' then -n else n)
    else none

/-- The least magnitude that is too large for a double: half a unit beyond the greatest one. -/
def doubleLimit : Nat := Nat.pow 2 1024 - Nat.pow 2 970

/-- The decimal number `mantissa * 10 ^ exponent` fits into a double. -/
def fitsDouble (mantissa : Nat) (exponent : Int) : Bool :=
  if mantissa = 0 then true
  else if 400 < exponent then false
  else if 0 ≤ exponent then mantissa * Nat.pow 10 exponent.toNat < doubleLimit
  else if exponent < -(mantissa.log2 : Int) then true
  else mantissa < doubleLimit * Nat.pow 10 (-exponent).toNat

/-- The text of a float is well formed and in range. -/
def isFloat (cs : List Char) : Bool :=
  let special := String.ofList cs ∈ ["nan", "+nan", "-nan", "inf", "+inf", "-inf"]
  special ||
    (let parts := (floatParts cs).filter (!·.isEmpty)
    parts.all (underscoresInside false) && !(parts.head?.any hasLeadingZero) && pointsInside cs &&
      match decimalParts? (cs.filter (· ≠ '_')) with
      | some (mantissa, places, exponent) => fitsDouble mantissa (exponent - places)
      | none => false)

/-! ### Dates and times -/

/-- Reads exactly `n` digits. -/
def fixedDigits (n : Nat) (cs : List Char) : Option (Nat × List Char) :=
  let digits := cs.take n
  if digits.length = n && digits.all Char.isDigit then some (digitsValue digits, cs.drop n) else none

def literalChar (c : Char) : List Char → Option (List Char)
  | d :: rest => if d = c then some rest else none
  | [] => none

def isLeapYear (y : Nat) : Bool :=
  y % 4 = 0 && (y % 100 ≠ 0 || y % 400 = 0)

def daysIn (year month : Nat) : Nat :=
  match month with
  | 2 => if isLeapYear year then 29 else 28
  | 4 | 6 | 9 | 11 => 30
  | _ => 31

/-- Reads a date; gives the rest. -/
def readDate (cs : List Char) : Option (List Char) := do
  let (year, cs) ← fixedDigits 4 cs
  let cs ← literalChar '-' cs
  let (month, cs) ← fixedDigits 2 cs
  let cs ← literalChar '-' cs
  let (day, cs) ← fixedDigits 2 cs
  if 1 ≤ month && month ≤ 12 && 1 ≤ day && day ≤ daysIn year month then return cs else none

/-- Reads a time of day with optional parts of a second; gives the rest. -/
def readTime (cs : List Char) : Option (List Char) := do
  let (hour, cs) ← fixedDigits 2 cs
  let cs ← literalChar ':' cs
  let (minute, cs) ← fixedDigits 2 cs
  let cs ← literalChar ':' cs
  let (second, cs) ← fixedDigits 2 cs
  if hour < 24 && minute < 60 && second < 60 then
    match cs with
    | '.' :: rest => if rest.head?.any Char.isDigit then return rest.dropWhile Char.isDigit else none
    | cs => return cs
  else none

/-- Reads the distance to universal time, up to the end. -/
def readOffset (cs : List Char) : Option Unit := do
  match cs with
  | ['Z'] => return ()
  | s :: cs =>
    if s ≠ '+' && s ≠ '-' then none
    let (hour, cs) ← fixedDigits 2 cs
    let cs ← literalChar ':' cs
    let (minute, cs) ← fixedDigits 2 cs
    if hour ≤ 24 && minute ≤ 60 && cs.isEmpty then return () else none
  | [] => none

/-- The text is a date, a time, or both with an optional distance to universal time. -/
def isDatetime (cs : List Char) : Bool :=
  let cs := cs.map fun c => if c = 'z' then 'Z' else if c = 't' || c = ' ' then 'T' else c
  match readDate cs with
  | some [] => true
  | some ('T' :: rest) =>
    match readTime rest with
    | some [] => true
    | some rest => (readOffset rest).isSome
    | none => false
  | some _ => false
  | none => readTime cs == some []

end LoopConflict.Toml
