import LoopConflict.Program.Type
import LoopConflict.Program.Operator

/-!
Functions in static single assignment form: a control flow graph of blocks, whose instructions
compute values from operands. An instruction is named by its place, a block and a position in it, so
every value has one definition.
-/
namespace LoopConflict.Program

/-- Where an instruction stands. -/
structure Place where
  block : Nat
  index : Nat
deriving DecidableEq, Repr, Inhabited

/-- A value: a parameter, a free variable, a global or a constant by its position, or the result of
    an instruction. -/
inductive Value where
  | param (i : Nat)
  | free (i : Nat)
  | global (i : Nat)
  | const (i : Nat)
  | result (p : Place)
deriving DecidableEq, Repr, Inhabited

/-- The instruction whose result a value is. -/
def Value.place? : Value → Option Place
  | .result p => some p
  | _ => none

/-- A named value from outside of the blocks. -/
structure Variable where
  name : String
  type : Ty
  pos : Int := 0
deriving Repr, Inhabited

/-- What a constant is. -/
inductive Literal where
  /-- An integer of any size. -/
  | int (n : Int)
  | text (bytes : List UInt8)
  /-- The zero value of a type without literals. -/
  | zero
  /-- A constant of another kind, by its text. -/
  | other (text : String)
deriving Repr, Inhabited

structure Constant where
  literal : Literal
  type : Ty
deriving Repr, Inhabited

/-- What an instruction does. -/
inductive Operation where
  /-- The value of the edge from the predecessor that control came from. -/
  | phi (edges : List Value) (comment : String)
  | binary (op : Operator) (x y : Value)
  | load (address : Value)
  | unary (op : String) (x : Value)
  | convert (x : Value)
  | changeType (x : Value)
  | indexAddress (x index : Value)
  | fieldAddress (x : Value) (field : Nat)
  | allocate (comment : String) (heap : Bool)
  | store (address value : Value)
  | branch (condition : Value)
  | jump
  | leave (results : List Value)
  /-- An instruction that is not looked into, by its text. -/
  | other (text : String) (operands : List Value)
deriving Repr, Inhabited

/-- The values that an operation uses, from left to right. -/
def Operation.operands : Operation → List Value
  | .phi edges _ => edges
  | .binary _ x y => [x, y]
  | .load x => [x]
  | .unary _ x => [x]
  | .convert x => [x]
  | .changeType x => [x]
  | .indexAddress x y => [x, y]
  | .fieldAddress x _ => [x]
  | .allocate _ _ => []
  | .store x y => [x, y]
  | .branch x => [x]
  | .jump => []
  | .leave results => results
  | .other _ operands => operands

/-- An instruction; one that computes a value has a name and a type for it. -/
structure Instruction where
  operation : Operation
  result : Option (String × Ty) := none
  pos : Int := 0
deriving Repr, Inhabited

structure Block where
  comment : String
  preds : List Nat
  succs : List Nat
  instructions : List Instruction
deriving Repr, Inhabited

structure Function where
  name : String
  receiver : Option Ty
  types : List TypeDecl
  params : List Variable
  free : List Variable
  globals : List Variable
  constants : List Constant
  blocks : List Block
  /-- The block that control resumes at after a failure, if there is one. -/
  recover : Option Nat
deriving Repr, Inhabited

namespace Function

variable (f : Function)

def instruction? (p : Place) : Option Instruction := do
  let b ← f.blocks[p.block]?
  b.instructions[p.index]?

def operation? (p : Place) : Option Operation :=
  (f.instruction? p).map (·.operation)

/-- The operation that computes a value. -/
def definition? (v : Value) : Option Operation :=
  v.place?.bind f.operation?

/-- The places of a block, in order. -/
def placesOf (b : Nat) : List Place :=
  (List.range (((f.blocks[b]?).map (·.instructions.length)).getD 0)).map fun i => ⟨b, i⟩

/-- The places of all instructions, block by block. -/
def places : List Place :=
  (List.range f.blocks.length).flatMap f.placesOf

def preds (b : Nat) : List Nat :=
  ((f.blocks[b]?).map (·.preds)).getD []

def succs (b : Nat) : List Nat :=
  ((f.blocks[b]?).map (·.succs)).getD []

/-- The number of values of the function. -/
def valueCount : Nat :=
  f.params.length + f.free.length + f.globals.length + f.constants.length + f.places.length

def typeOf (v : Value) : Ty :=
  match v with
  | .param i => ((f.params[i]?).map (·.type)).getD default
  | .free i => ((f.free[i]?).map (·.type)).getD default
  | .global i => ((f.globals[i]?).map (·.type)).getD default
  | .const i => ((f.constants[i]?).map (·.type)).getD default
  | .result p => (((f.instruction? p).bind (·.result)).map (·.2)).getD default

/-- The source position of a value; 0 if there is none. -/
def posOf (v : Value) : Int :=
  match v with
  | .param i => ((f.params[i]?).map (·.pos)).getD 0
  | .free i => ((f.free[i]?).map (·.pos)).getD 0
  | .global i => ((f.globals[i]?).map (·.pos)).getD 0
  | .const _ => 0
  | .result p => ((f.instruction? p).map (·.pos)).getD 0

/-- The value of an integer constant that is a word. -/
def constant? (v : Value) : Option Int64 :=
  match v with
  | .const i =>
    match f.constants[i]? with
    | some ⟨.int n, _⟩ =>
      if Int64.minValue.toInt ≤ n ∧ n ≤ Int64.maxValue.toInt then some (Int64.ofInt n) else none
    | _ => none
  | _ => none

/-- The value has an integer type. -/
def isInteger (v : Value) : Bool :=
  (f.typeOf v).isInteger f.types

end Function

end LoopConflict.Program
