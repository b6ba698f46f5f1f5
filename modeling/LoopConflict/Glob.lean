/-!
Patterns for names with slashes. A star stands for any text without a slash, a question mark for one
character that is not a slash, brackets for one character of a class, and a backslash takes the meaning
from the character after it. Patterns and names are read as bytes; where a character is asked for, the
bytes are decoded.
-/
namespace LoopConflict

/-- What matches one character, or one byte of a literal one. -/
inductive GlobItem where
  | byte (b : UInt8)
  | anyChar
  | oneOf (negated : Bool) (ranges : List (Nat × Nat))
deriving DecidableEq, Repr

/-- Items in a row; with a star, any text without a slash may stand before them. -/
structure GlobPiece where
  star : Bool
  items : List GlobItem
deriving DecidableEq, Repr

namespace Glob

def slash : UInt8 := 0x2f

/-- A byte inside of a longer character. -/
def isContinuation (b : UInt8) : Bool :=
  0x80 ≤ b && b < 0xc0

/-- The code that stands for a byte which begins no character. -/
def replacement : Nat := 0xFFFD

/-- The lower six bits of a byte inside of a character. -/
def payload (b : UInt8) : Nat :=
  b.toNat % 64

/-- The first character, and the bytes after it. A byte that begins no character is passed alone. -/
def firstChar : List UInt8 → Option (Nat × List UInt8)
  | [] => none
  | b :: rest =>
    if b < 0x80 then some (b.toNat, rest)
    else match rest with
      | c :: rest₁ =>
        if 0xc2 ≤ b && b < 0xe0 && isContinuation c then some (b.toNat % 32 * 64 + payload c, rest₁)
        else match rest₁ with
          | d :: rest₂ =>
            if 0xe0 ≤ b && b < 0xf0 && isContinuation c && isContinuation d then
              some (b.toNat % 16 * 4096 + payload c * 64 + payload d, rest₂)
            else match rest₂ with
              | e :: rest₃ =>
                if 0xf0 ≤ b && b < 0xf5 && isContinuation c && isContinuation d && isContinuation e then
                  some (b.toNat % 8 * 262144 + payload c * 4096 + payload d * 64 + payload e, rest₃)
                else some (replacement, rest)
              | [] => some (replacement, rest)
          | [] => some (replacement, rest)
      | [] => some (replacement, rest)

/-- One character of a class, which may be escaped. Something must follow it. -/
def classChar (bs : List UInt8) : Option (Nat × List UInt8) := do
  let bs ← match bs with
    | 0x2d :: _ => none
    | 0x5d :: _ => none
    | 0x5c :: rest => some rest
    | bs => some bs
  let (c, rest) ← firstChar bs
  if rest.isEmpty then none else return (c, rest)

/-- The ranges of a class up to its closing bracket; there is at least one. -/
def classRanges : (fuel : Nat) → (first : Bool) → List UInt8 → Option (List (Nat × Nat) × List UInt8)
  | 0, _, _ => none
  | fuel + 1, first, bs =>
    match first, bs with
    | false, 0x5d :: rest => some ([], rest)
    | _, bs => do
      let (lo, rest) ← classChar bs
      let (hi, rest) ← match rest with
        | 0x2d :: rest => classChar rest
        | rest => some (lo, rest)
      let (ranges, rest) ← classRanges fuel false rest
      return ((lo, hi) :: ranges, rest)

/-- The pieces of a pattern; nothing if it is malformed. -/
def piecesWithin : (fuel : Nat) → List UInt8 → Option (List GlobPiece)
  | _, [] => some []
  | 0, _ => none
  | fuel + 1, b :: rest => do
    if b = 0x2a then
      match ← piecesWithin fuel rest with
      | piece :: pieces => return { piece with star := true } :: pieces
      | [] => return [⟨true, []⟩]
    else
      let (item, rest) ←
        if b = 0x3f then some (GlobItem.anyChar, rest)
        else if b = 0x5b then do
          let (negated, rest) := match rest with
            | 0x5e :: rest => (true, rest)
            | rest => (false, rest)
          let (ranges, rest) ← classRanges (rest.length + 1) true rest
          some (GlobItem.oneOf negated ranges, rest)
        else if b = 0x5c then
          match rest with
          | c :: rest => some (GlobItem.byte c, rest)
          | [] => none
        else some (GlobItem.byte b, rest)
      match ← piecesWithin fuel rest with
      | ⟨false, items⟩ :: pieces => return ⟨false, item :: items⟩ :: pieces
      | pieces => return ⟨false, [item]⟩ :: pieces

/-- The pieces of a pattern; nothing if it is malformed. -/
def pieces? (pattern : String) : Option (List GlobPiece) :=
  let bs := pattern.toUTF8.toList
  piecesWithin bs.length bs

/-- Matches one item at the front of a name; gives the rest. -/
def matchItem : GlobItem → List UInt8 → Option (List UInt8)
  | .byte b, c :: rest => if b = c then some rest else none
  | .byte _, [] => none
  | .anyChar, bs => do
    let (c, rest) ← firstChar bs
    if c = slash.toNat then none else some rest
  | .oneOf negated ranges, bs => do
    let (c, rest) ← firstChar bs
    let found := ranges.any fun (lo, hi) => lo ≤ c && c ≤ hi
    if found = negated then none else some rest

/-- Matches items at the front of a name; gives the rest. -/
def matchItems : List GlobItem → List UInt8 → Option (List UInt8)
  | [], bs => some bs
  | item :: items, bs => do matchItems items (← matchItem item bs)

/-- Matches items at the first place where they fit, passing over bytes other than a slash. The last
    items of a pattern must reach the end of the name. -/
def matchAfter (items : List GlobItem) (last : Bool) : List UInt8 → Option (List UInt8)
  | [] => none
  | b :: rest =>
    if b = slash then none
    else match matchItems items rest with
      | some after => if last && !after.isEmpty then matchAfter items last rest else some after
      | none => matchAfter items last rest

/-- Matches one piece; gives the rest of the name. -/
def matchPiece (piece : GlobPiece) (last : Bool) (name : List UInt8) : Option (List UInt8) :=
  if piece.star && piece.items.isEmpty then
    if name.contains slash then none else some []
  else match matchItems piece.items name with
    | some after =>
      if after.isEmpty || !last then some after
      else if piece.star then matchAfter piece.items last name else none
    | none => if piece.star then matchAfter piece.items last name else none

/-- Matches the pieces of a pattern from left to right, each at its first fitting place, against the whole
    name. -/
def matchPieces : List GlobPiece → List UInt8 → Bool
  | [], name => name.isEmpty
  | piece :: pieces, name =>
    match matchPiece piece pieces.isEmpty name with
    | some after => matchPieces pieces after
    | none => false

/-- The pattern matches the whole name. A malformed pattern matches nothing. -/
def isMatch (pattern name : String) : Bool :=
  match pieces? pattern with
  | some pieces => matchPieces pieces name.toUTF8.toList
  | none => false

end Glob

end LoopConflict
