import LoopConflict.Program.Function
import LoopConflict.Text.Quoted

/-!
How functions, values and instructions are written. An operand that is a constant shows its type
relative to the package; the name of a constant shows it qualified.
-/
namespace LoopConflict.Program

/-- Longer string constants are shortened. -/
def maxShownBytes : Nat := 20

/-- The mark at the end of a shortened string constant. -/
def ellipsis : String := "..."

/-- A string constant in quotes, cut after its first bytes if it is long. -/
def shownString (bytes : List UInt8) : String :=
  if bytes.length ≤ maxShownBytes then Text.quotedBytes ⟨bytes.toArray⟩
  else
    let kept := bytes.take (maxShownBytes - ellipsis.utf8ByteSize)
    Text.quotedBytes ⟨(kept ++ ellipsis.toUTF8.toList).toArray⟩

/-- The zero value of a type. -/
def zeroText (decls : List TypeDecl) (n : Naming) (t : Ty) : String :=
  match t.underlying decls with
  | .array elem length => (Ty.array elem length).text decls n ++ "\x7b\x7d"
  | .struct fields => (Ty.struct fields).text decls n ++ "\x7b\x7d"
  | .parameter name _ => "*new(" ++ name ++ ")"
  | _ => "nil"

def Constant.text (decls : List TypeDecl) (n : Naming) (c : Constant) : String :=
  let value := match c.literal with
    | .int k => Text.int k
    | .text bytes => shownString bytes
    | .zero => zeroText decls n c.type
    | .other s => s
  value ++ ":" ++ c.type.text decls n

namespace Function

variable (f : Function)

/-- The function with its package, or with its receiver's type. -/
def text : String :=
  match f.receiver with
  | none => Naming.qualified.write f.name
  | some t => "(" ++ t.text f.types .qualified ++ ")." ++ f.name

/-- The name of a value; constants are named by their text. -/
def valueText (n : Naming) (v : Value) : String :=
  match v with
  | .param i => ((f.params[i]?).map (·.name)).getD ""
  | .free i => ((f.free[i]?).map (·.name)).getD ""
  | .global i => ((f.globals[i]?).map (·.name)).getD ""
  | .const i => ((f.constants[i]?).map (·.text f.types n)).getD ""
  | .result p => (((f.instruction? p).bind (·.result)).map (·.1)).getD ""

def nameOf (v : Value) : String :=
  f.valueText .qualified v

def operandText (v : Value) : String :=
  f.valueText .relative v

/-- The name of a field of the struct that a pointer type points to. -/
def fieldName? (t : Ty) (field : Nat) : Option String :=
  match t.core? f.types with
  | some (.pointer elem) =>
    match elem.core? f.types with
    | some (.struct fields) => (fields[field]?).map (·.1)
    | _ => none
  | _ => none

/-- The type that a pointer type points to. -/
def pointee (t : Ty) : Ty :=
  match t.core? f.types with
  | some (.pointer elem) => elem
  | _ => t

/-- The edges of a phi, each after the predecessor that it belongs to. -/
def edgeTexts : List Nat → List Value → List String
  | _, [] => []
  | [], v :: rest => ("-1: " ++ f.operandText v) :: edgeTexts [] rest
  | b :: preds, v :: rest => (Text.nat b ++ ": " ++ f.operandText v) :: edgeTexts preds rest

/-- The text of the instruction at a place, without the name of its result. -/
def instructionText (p : Place) : String :=
  match f.instruction? p with
  | none => ""
  | some i =>
    let type : Ty := (i.result.map Prod.snd).getD default
    let conversion (word : String) (x : Value) :=
      word ++ " " ++ type.text f.types .relative ++ " <- " ++
        (f.typeOf x).text f.types .relative ++ " (" ++ f.operandText x ++ ")"
    match i.operation with
    | .phi edges comment =>
      "phi [" ++ Text.joined ", " (f.edgeTexts (f.preds p.block) edges) ++ "]" ++
        (if comment = "" then "" else " #" ++ comment)
    | .binary op x y => f.operandText x ++ " " ++ op.text ++ " " ++ f.operandText y
    | .load x => "*" ++ f.operandText x
    | .unary op x => op ++ f.operandText x
    | .convert x => conversion "convert" x
    | .changeType x => conversion "changetype" x
    | .indexAddress x y => "&" ++ f.operandText x ++ "[" ++ f.operandText y ++ "]"
    | .fieldAddress x field =>
      "&" ++ f.operandText x ++ "." ++ (f.fieldName? (f.typeOf x) field).getD "?" ++
        " [#" ++ Text.nat field ++ "]"
    | .allocate comment heap =>
      (if heap then "new " else "local ") ++
        (f.pointee type).text f.types .relative ++ " (" ++ comment ++ ")"
    | .store x y => "*" ++ f.operandText x ++ " = " ++ f.operandText y
    | .branch _ => "if"
    | .jump => "jump"
    | .leave _ => "return"
    | .other s _ => s

/-- The text of the instruction at a place, after the name of its result if it has one. -/
def assignmentText (p : Place) : String :=
  match (f.instruction? p).bind (·.result) with
  | some (name, _) => name ++ " = " ++ f.instructionText p
  | none => f.instructionText p

/-- A name that reads like the source, through at most `fuel` nested field loads. -/
def sourceNameWithin : Nat → Value → String
  | 0, v => f.nameOf v
  | fuel + 1, v =>
    match f.definition? v with
    | some (.allocate comment _) => if comment = "" then f.nameOf v else comment
    | some (.phi _ comment) => if comment = "" then f.nameOf v else comment ++ "." ++ f.nameOf v
    | some (.load (.global i)) => f.nameOf (.global i)
    | some (.load x) =>
      match f.definition? x with
      | some (.fieldAddress y field) =>
        sourceNameWithin fuel y ++ "." ++ (f.fieldName? (f.typeOf y) field).getD (Text.nat field)
      | _ => f.nameOf v
    | _ => f.nameOf v

/-- A name for a value that reads like the source where it can: the comment of an allocation, the
    comment and name of a phi, and what a load reads from a global or a field. -/
def sourceName (v : Value) : String :=
  f.sourceNameWithin (f.places.length + 1) v

end Function

end LoopConflict.Program
