/-!
Names that the modelling language accepts: ASCII letters, digits and underscores, with no digit in
front.
-/
namespace LoopConflict.Linear

/-- A letter, a digit or an underscore of ASCII. -/
def isNameByte (b : UInt8) : Bool :=
  (97 ≤ b && b ≤ 122) || (65 ≤ b && b ≤ 90) || (48 ≤ b && b ≤ 57) || b == 95

/-- A byte that is not of a name becomes an underscore. -/
def nameChar (b : UInt8) : Char :=
  if isNameByte b then Char.ofNat b.toNat else '_'

/-- An underscore goes in front of a digit, and stands for an empty name. -/
def guardFront : List Char → List Char
  | [] => ['_']
  | c :: rest => if c.isDigit then '_' :: c :: rest else c :: rest

/-- The name closest to a byte string. -/
def nameOfBytes (bytes : List UInt8) : List Char :=
  guardFront (bytes.map nameChar)

/-- The name closest to a text, byte by byte of its UTF-8 form. -/
def nameOf (s : String) : String :=
  String.ofList (nameOfBytes s.toUTF8.toList)

end LoopConflict.Linear
