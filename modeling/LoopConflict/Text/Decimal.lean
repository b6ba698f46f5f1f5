/-!
Decimal text of whole numbers, and lists of texts put together.
-/
namespace LoopConflict.Text

/-- The decimal digits of a natural number, as characters. -/
def natChars (n : Nat) : List Char :=
  Nat.toDigits 10 n

/-- The decimal text of an integer, as characters: a minus sign stands before a negative one. -/
def intChars : Int → List Char
  | .ofNat n => natChars n
  | .negSucc n => '-' :: natChars (n + 1)

/-- The decimal text of a natural number. -/
def nat (n : Nat) : String :=
  String.ofList (natChars n)

/-- The decimal text of an integer. -/
def int (n : Int) : String :=
  String.ofList (intChars n)

/-- The decimal text of a word. -/
def word (n : Int64) : String :=
  int n.toInt

/-- The texts one after the other. -/
def concat : List String → String
  | [] => ""
  | s :: rest => s ++ concat rest

/-- The texts one after the other, with a separator between neighbours. -/
def joined (separator : String) : List String → String
  | [] => ""
  | s :: rest => s ++ concat (rest.map (separator ++ ·))

/-- A text repeated. -/
def repeated (s : String) : Nat → String
  | 0 => ""
  | n + 1 => s ++ repeated s n

end LoopConflict.Text
