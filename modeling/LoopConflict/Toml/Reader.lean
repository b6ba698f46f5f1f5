import LoopConflict.Toml.Scalar
import LoopConflict.Toml.Table

/-!
Reading a TOML document. `parse` gives its top table, or nothing if the document is not well formed.
-/
namespace LoopConflict.Toml

/-- What is left of the text, the document so far, and the key that a value is being read for. -/
structure Progress where
  rest : List Char
  document : Document := {}
  key : String := ""

/-- A step of reading, which fails on text that is not well formed. -/
abbrev Reader := StateT Progress Option

namespace Reader

def rest : Reader (List Char) := do return (← get).rest

def setRest (cs : List Char) : Reader Unit := modify fun p => { p with rest := cs }

def peek : Reader (Option Char) := do return (← rest).head?

def skip : Reader Unit := modify fun p => { p with rest := p.rest.tail }

def skipWhile (p : Char → Bool) : Reader Unit := do setRest ((← rest).dropWhile p)

def skipBlanks : Reader Unit := skipWhile isBlank

/-- Drops a comment, up to the end of its line. -/
def skipComment : Reader Unit := skipWhile (!isLineEnd ·)

/-- Takes one character, which must be `c`. -/
def expect (c : Char) : Reader Unit := do
  if (← peek) == some c then skip else failure

/-- Runs a reader of text. -/
def take {α : Type} (read : List Char → Option (α × List Char)) : Reader α := do
  let (a, cs) ← read (← rest)
  setRest cs
  return a

/-- Changes the document, unless the change is refused. -/
def change (f : Document → Option Document) : Reader Unit := do
  let p ← get
  let d ← f p.document
  set { p with document := d }

def context : Reader Path := do return (← get).document.context

def setContext (p : Path) : Reader Unit :=
  modify fun s => { s with document := { s.document with context := p } }

def setKey (k : String) : Reader Unit := modify fun s => { s with key := k }

end Reader

open Reader

/-- A character of a key without quotes. -/
def isKeyChar (c : Char) : Bool :=
  c.isAlphanum || c = '_' || c = '-'

/-- One part of a key. -/
def keyPart : Reader String := do
  skipBlanks
  match ← peek with
  | some '"' => skip; take basicString
  | some '\'' => skip; take literalString
  | _ =>
    let cs ← rest
    let name := cs.takeWhile isKeyChar
    if name.isEmpty then failure
    setRest (cs.drop name.length)
    return String.ofList name

/-- The parts of a key, with points between them, up to the character that ends it. -/
def keyParts (close : Char) : Nat → Reader Path
  | 0 => failure
  | fuel + 1 => do
    let part ← keyPart
    skipBlanks
    let c ← peek
    skip
    if c == some '.' then return part :: (← keyParts close fuel)
    else if c == some close then return [part]
    else failure

/-- A key up to the character that ends it. -/
def keyUpTo (close : Char) : Reader Path := do keyParts close (← rest).length

/-- The text of an integer with a base mark, after the mark. -/
def baseDigits (mark : Char) (isDigit : Char → Bool) (cs : List Char) : Option (List Char × List Char) :=
  if cs.head?.any isDigit then
    let digits := cs.takeWhile fun c => isDigit c || c = '_'
    some ('0' :: mark :: digits, cs.drop digits.length)
  else none

/-- An integer or a float, after the text `front`. -/
def decimalFrom (front cs : List Char) : Option (Value × List Char) :=
  let digits := cs.takeWhile fun c => c.isDigit || c = '_'
  let rest := cs.drop digits.length
  match rest with
  | c :: _ =>
    if c = '.' || c = 'e' || c = 'E' then
      let tail := rest.takeWhile fun c => c.isDigit || c ∈ ['_', '.', '-', '+', 'e', 'E']
      if isFloat (front ++ digits ++ tail) then some (.float, rest.drop tail.length) else none
    else do return (.integer (← integerOf? (front ++ digits)), rest)
  | [] => do return (.integer (← integerOf? (front ++ digits)), rest)

/-- A date or a time, whose first digits are `front`. -/
def datetimeFrom (front cs : List Char) : Option (Value × List Char) :=
  let tail := cs.takeWhile fun c => c.isDigit || c ∈ ['-', ':', 'T', 't', ' ', '.', 'Z', 'z', '+']
  let text := ((front ++ tail).reverse.dropWhile (· = ' ')).reverse
  if isDatetime text then some (.datetime, cs.drop tail.length) else none

/-- A number or a date without a sign. -/
def unsignedNumber (cs : List Char) : Option (Value × List Char) :=
  let based (read : Option (List Char × List Char)) : Option (Value × List Char) := do
    let (text, rest) ← read
    return (.integer (← integerOf? text), rest)
  match cs with
  | '0' :: 'b' :: rest => based (baseDigits 'b' (fun c => c = '0' || c = '1') rest)
  | '0' :: 'o' :: rest => based (baseDigits 'o' (fun c => '0' ≤ c && c ≤ '7') rest)
  | '0' :: 'x' :: rest => based (baseDigits 'x' isHexDigit rest)
  | cs =>
    let (digits, rest) := spanDigits cs
    match rest with
    | c :: _ =>
      if 2 ≤ digits.length && (c = '-' || c = ':') || cs.head? ≠ some '0' && (c = '-' || c = ':') then
        datetimeFrom digits rest
      else decimalFrom [] cs
    | [] => decimalFrom [] cs

/-- A number after its sign: a decimal one, an infinity, or not a number. -/
def signedNumber (sign : Char) (cs : List Char) : Option (Value × List Char) :=
  match cs with
  | 'i' :: 'n' :: 'f' :: rest => some (.float, rest)
  | 'n' :: 'a' :: 'n' :: rest => some (.float, rest)
  | c :: _ => if c.isDigit then decimalFrom [sign] cs else none
  | [] => none

/-- The longest word at the front. -/
def wordAt (cs : List Char) : List Char :=
  cs.takeWhile Char.isAlpha

/-- A truth value. -/
def truthValue (cs : List Char) : Option (Value × List Char) :=
  let word := wordAt cs
  if word = "true".toList then some (.boolean true, cs.drop word.length)
  else if word = "false".toList then some (.boolean false, cs.drop word.length)
  else none

/-- Turns a reader of strings into a reader of values. -/
def textValue (r : Option (String × List Char)) : Option (Value × List Char) :=
  r.map fun (s, rest) => (.text s, rest)

/-- A value that is not an array or a table. -/
def scalar (cs : List Char) : Option (Value × List Char) :=
  match cs with
  | '"' :: '"' :: '"' :: rest => textValue (multilineString rest)
  | '"' :: rest => textValue (basicString rest)
  | '\'' :: '\'' :: '\'' :: rest => textValue (multilineLiteral rest)
  | '\'' :: rest => textValue (literalString rest)
  | '+' :: rest => signedNumber '+' rest
  | '-' :: rest => signedNumber '-' rest
  | 'i' :: 'n' :: 'f' :: rest => some (.float, rest)
  | 'n' :: 'a' :: 'n' :: rest => some (.float, rest)
  | c :: _ => if c.isDigit then unsignedNumber cs else truthValue cs
  | [] => none

/-- Skips blanks, line ends and comments. -/
def skipGap : Nat → Reader Unit
  | 0 => failure
  | fuel + 1 => do
    skipWhile fun c => isBlank c || isLineEnd c
    if (← peek) == some '#' then
      skipComment
      skipGap fuel

mutual

/-- A value. `inArray` tells that it is an element of an array, where a table is appended. -/
def value (inArray : Bool) : Nat → Reader Value
  | 0 => failure
  | fuel + 1 => do
    skipBlanks
    match ← peek with
    | some '[' =>
      skip
      let key := (← get).key
      change fun d => some (d.note key true)
      return .array (← arrayItems fuel)
    | some '\x7b' =>
      skip
      inlineTable inArray fuel
    | _ => take scalar

/-- The elements of an array up to its closing bracket; a comma may follow the last one. -/
def arrayItems : Nat → Reader (List Value)
  | 0 => failure
  | fuel + 1 => do
    skipGap fuel
    if (← peek) == some ']' then
      skip
      return []
    let v ← value true fuel
    skipGap fuel
    match ← peek with
    | some ',' =>
      skip
      return v :: (← arrayItems fuel)
    | some ']' =>
      skip
      return [v]
    | _ => failure

/-- A table inside of a value. Its keys are set in the document as they are read. -/
def inlineTable (inArray : Bool) : Nat → Reader Value
  | 0 => failure
  | fuel + 1 => do
    let outer ← context
    let key := (← get).key
    let inner := outer ++ [key]
    setKey ""
    change fun d => (d.imply inner).openTable inner inArray
    skipBlanks
    let entries ← if (← peek) == some '\x7d' then do skip; pure [] else inlineEntries inner fuel
    setContext outer
    setKey key
    return .table entries

/-- The entries of an inline table up to its closing brace, which no comma may precede. -/
def inlineEntries (inner : Path) : Nat → Reader Table
  | 0 => failure
  | fuel + 1 => do
    let (key, v) ← entry fuel
    setContext inner
    skipBlanks
    match ← peek with
    | some ',' =>
      skip
      let entries ← inlineEntries inner fuel
      return (key, v) :: entries
    | some '\x7d' =>
      skip
      return [(key, v)]
    | _ => failure

/-- A key and its value, which is set in the current table. The table that the value went to stays the
    current one. -/
def entry : Nat → Reader (String × Value)
  | 0 => failure
  | fuel + 1 => do
    let parts ← keyUpTo '='
    let key := parts.getLastD ""
    setKey key
    change (Document.enter parts.dropLast)
    let v ← value false fuel
    setKey key
    change fun d => (d.set key v).map (Document.note key (v matches .array _))
    return (key, v)

end

/-- Nothing but a comment may follow in the same line. -/
def endOfLine : Reader Unit := do
  skipBlanks
  match ← peek with
  | none => return
  | some '#' => skipComment
  | some c => if isLineEnd c then skip else failure

/-- The name of a table in brackets, after the first one. -/
def header : Reader Unit := do
  let append := (← peek) == some '['
  if append then skip
  let p ← keyUpTo ']'
  if append then expect ']'
  change (Document.openTable p append)
  change fun d => some (d.note "" false)

/-- Reads the lines of a document. -/
def lines : Nat → Reader Unit
  | 0 => failure
  | fuel + 1 => do
    skipGap fuel
    match ← peek with
    | none => return
    | some '[' =>
      skip
      header
    | some _ =>
      let outer ← context
      let _ ← entry fuel
      setContext outer
      setKey ""
    endOfLine
    lines fuel

/-- A character that may stand in a document. Control characters other than tabs and line ends may not,
    nor may the replacement character, which is what bytes that are no text read as. An escape may
    still stand for any of them. -/
def isPermitted (c : Char) : Bool :=
  c = '\t' || c = '\n' || (0x20 ≤ c.toNat && c.toNat ≠ 0x7F && c.toNat ≠ 0xFFFD)

/-- Only permitted characters stand in the text, and a carriage return only before a line feed. -/
def isPlain : List Char → Bool
  | [] => true
  | '\r' :: rest => rest.head? == some '\n' && isPlain rest
  | c :: rest => isPermitted c && isPlain rest

/-- Drops the mark of the byte order. -/
def dropByteOrderMark : List Char → List Char
  | c :: rest => if c.toNat = 0xFEFF then rest else c :: rest
  | [] => []

/-- Reads a document. The fuel covers every step, since each one takes a character or goes one level
    down. -/
def parse (text : String) : Option Table := do
  let cs := dropByteOrderMark text.toList
  if isPlain cs then
    let (_, progress) ← (lines (8 * cs.length + 8)).run { rest := cs }
    return progress.document.root
  else none

end LoopConflict.Toml
