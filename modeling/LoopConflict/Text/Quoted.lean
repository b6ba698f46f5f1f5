import LoopConflict.Text.Printable
import LoopConflict.Text.Limited

/-!
Text in double quotes. Printable characters stand for themselves; a quote, a backslash and the named
controls have escapes of two characters; other characters are written by their code point, and bytes
that belong to no character by their value.
-/
namespace LoopConflict.Text

/-- The digits of `n` in base 16, filled up with zeros to `width`. -/
def hexDigits (width n : Nat) : List Char :=
  let digits := Nat.toDigits 16 n
  List.replicate (width - digits.length) '0' ++ digits

/-- How a character is written between double quotes. -/
def quotedChar (c : Char) : List Char :=
  if c = '"' || c = '\\' then ['\\', c]
  else if isPrintable c then [c]
  else match c.toNat with
    | 7 => ['\\', 'a']
    | 8 => ['\\', 'b']
    | 12 => ['\\', 'f']
    | 10 => ['\\', 'n']
    | 13 => ['\\', 'r']
    | 9 => ['\\', 't']
    | 11 => ['\\', 'v']
    | n =>
      if n < 32 || n = 127 then '\\' :: 'x' :: hexDigits 2 n
      else if n < 0x10000 then '\\' :: 'u' :: hexDigits 4 n
      else '\\' :: 'U' :: hexDigits 8 n

/-- How a byte that belongs to no character is written. -/
def quotedByte (b : UInt8) : List Char :=
  '\\' :: 'x' :: hexDigits 2 b.toNat

/-- Quotes UTF-8 from `start` on, for at most `fuel` characters. -/
def quotedFrom (bytes : ByteArray) (start : Nat) : Nat → List Char
  | 0 => []
  | fuel + 1 =>
    if start < bytes.size then
      match leadingCharLength? bytes start with
      | some n =>
        ((String.fromUTF8? (bytes.extract start (start + n))).getD "").toList.flatMap quotedChar ++
          quotedFrom bytes (start + n) fuel
      | none => quotedByte ((bytes.data[start]?).getD 0) ++ quotedFrom bytes (start + 1) fuel
    else []

/-- A byte string in double quotes. -/
def quotedBytes (bytes : ByteArray) : String :=
  String.ofList ('"' :: quotedFrom bytes 0 bytes.size ++ ['"'])

/-- A text in double quotes. -/
def quoted (s : String) : String :=
  String.ofList ('"' :: s.toList.flatMap quotedChar ++ ['"'])

end LoopConflict.Text
