/-!
Integers and truth values as they are written on a command line. An integer may have a sign, a base
mark (`0x`, `0o`, `0b`, or a leading zero for base 8) and underscores between its digits.
-/
namespace LoopConflict.Text

/-- Why a literal is refused. -/
inductive LiteralError where
  | malformed
  | outOfRange
deriving DecidableEq, Repr

def LiteralError.message : LiteralError → String
  | .malformed => "parse error"
  | .outOfRange => "value out of range"

/-- The value of a letter or digit as a digit of some base. -/
def digitValue? (c : Char) : Option Nat :=
  if c.isDigit then some (c.toNat - '0'.toNat)
  else if c.isAlpha then some (c.toLower.toNat - 'a'.toNat + 10)
  else none

/-- The number of unsigned values of 64 bits. -/
def unsignedRange : Nat := Nat.pow 2 64

/-- Reads digits, passing over underscores. A number out of range is noticed before a wrong character
    after it. -/
def readDigits (base : Nat) : (value : Nat) → List Char → Except LiteralError Nat
  | value, [] => .ok value
  | value, c :: rest =>
    if c = '_' then readDigits base value rest
    else match digitValue? c with
      | none => .error .malformed
      | some d =>
        if base ≤ d then .error .malformed
        else if unsignedRange ≤ value * base + d then .error .outOfRange
        else readDigits base (value * base + d) rest

/-- The base of an unsigned literal, and its digits. -/
def baseOf : List Char → Nat × List Char
  | '0' :: m :: d :: rest =>
    match m.toLower with
    | 'b' => (2, d :: rest)
    | 'o' => (8, d :: rest)
    | 'x' => (16, d :: rest)
    | _ => (8, m :: d :: rest)
  | '0' :: rest => (8, rest)
  | cs => (10, cs)

/-- Every underscore stands between two digits; a base mark counts as a digit. -/
def underscoresFit (hex : Bool) : (last : Option Char) → List Char → Bool
  | last, [] => last ≠ some '_'
  | last, c :: rest =>
    if c.isDigit || (hex && 'a' ≤ c.toLower && c.toLower ≤ 'f') then underscoresFit hex (some '0') rest
    else if c = '_' then last == some '0' && underscoresFit hex (some '_') rest
    else last ≠ some '_' && underscoresFit hex (some '!') rest

/-- The underscores of an unsigned literal are in place. -/
def underscoresOk : List Char → Bool
  | '0' :: m :: rest =>
    match m.toLower with
    | 'b' | 'o' => underscoresFit false (some '0') rest
    | 'x' => underscoresFit true (some '0') rest
    | _ => underscoresFit false none ('0' :: m :: rest)
  | cs => underscoresFit false none cs

/-- Reads an unsigned literal. -/
def readUnsigned (cs : List Char) : Except LiteralError Nat :=
  if cs.isEmpty then .error .malformed
  else do
    let (base, digits) := baseOf cs
    let n ← readDigits base 0 digits
    if digits.contains '_' && !underscoresOk cs then .error .malformed else .ok n

/-- Reads an integer of 64 bits. -/
def readInteger (s : String) : Except LiteralError Int64 := do
  let (negative, cs) := match s.toList with
    | '-' :: rest => (true, rest)
    | '+' :: rest => (false, rest)
    | cs => (false, cs)
  let n ← readUnsigned cs
  if negative then
    if n ≤ Nat.pow 2 63 then .ok (Int64.ofInt (-n)) else .error .outOfRange
  else if n < Nat.pow 2 63 then .ok (Int64.ofInt n)
  else .error .outOfRange

/-- Reads a truth value. -/
def readBoolean (s : String) : Except LiteralError Bool :=
  if s ∈ ["1", "t", "T", "TRUE", "true", "True"] then .ok true
  else if s ∈ ["0", "f", "F", "FALSE", "false", "False"] then .ok false
  else .error .malformed

end LoopConflict.Text
