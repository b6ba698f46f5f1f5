/-!
What reaches a writer that takes a limited number of bytes and then fails.
-/
namespace LoopConflict.Text

/-- The outcome of writing: the text taken, how much of it was counted as written, and whether the
    writer failed. -/
structure Written where
  text : String
  count : Nat
  failed : Bool
deriving DecidableEq, Repr

/-- The length of the first character of `bytes`, if they start with a complete one. -/
def leadingCharLength? (bytes : ByteArray) (start : Nat) : Option Nat :=
  [1, 2, 3, 4].find? fun n => start + n ≤ bytes.size && (bytes.extract start (start + n)).validateUTF8

/-- Reads UTF-8 from `start` on, for at most `fuel` characters; a byte that belongs to no character
    reads as the replacement character. -/
def decodeFrom (bytes : ByteArray) (start : Nat) : Nat → List Char
  | 0 => []
  | fuel + 1 =>
    if start < bytes.size then
      match leadingCharLength? bytes start with
      | some n =>
        ((String.fromUTF8? (bytes.extract start (start + n))).getD "").toList ++ decodeFrom bytes (start + n) fuel
      | none => Char.ofNat 0xFFFD :: decodeFrom bytes (start + 1) fuel
    else []

/-- The text of a byte string. -/
def decoded (bytes : ByteArray) : String :=
  match String.fromUTF8? bytes with
  | some s => s
  | none => String.ofList (decodeFrom bytes 0 bytes.size)

/-- The first `n` bytes of a text, read as text. -/
def firstBytes (s : String) (n : Nat) : String :=
  decoded (s.toUTF8.extract 0 n)

/-- A writer that takes a limited number of bytes, if there is a limit. -/
structure Sink where
  limit : Option Nat
  taken : ByteArray := .empty

/-- Takes as many of the bytes as there is room for, and says how many. -/
def Sink.write (s : Sink) (bytes : ByteArray) : Sink × Nat :=
  let n := match s.limit with
    | none => bytes.size
    | some limit => min bytes.size (limit - s.taken.size)
  ({ s with taken := s.taken ++ bytes.extract 0 n }, n)

/-- Writes a text to a writer with a limit; `counted` says what is counted as written of a text that is not
    taken as a whole. -/
def write (s : String) (limit : Option Nat) (counted : Nat → Nat) : Written :=
  let (sink, n) := Sink.write { limit } s.toUTF8
  let failed := decide (n < s.utf8ByteSize)
  { text := decoded sink.taken, count := if failed then counted n else n, failed }

end LoopConflict.Text
