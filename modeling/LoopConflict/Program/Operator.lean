/-!
Binary operators: the arithmetic that evolutions are computed through, the six comparisons, and all
others by their text.
-/
namespace LoopConflict.Program

inductive Comparison where
  | lt
  | le
  | gt
  | ge
  | eq
  | ne
deriving DecidableEq, Repr

def Comparison.text : Comparison → String
  | .lt => "<"
  | .le => "<="
  | .gt => ">"
  | .ge => ">="
  | .eq => "=="
  | .ne => "!="

/-- The comparison that holds with its operands exchanged. -/
def Comparison.flip : Comparison → Comparison
  | .lt => .gt
  | .gt => .lt
  | .le => .ge
  | .ge => .le
  | c => c

/-- The comparison that holds iff the given one does not. -/
def Comparison.negate : Comparison → Comparison
  | .lt => .ge
  | .gt => .le
  | .le => .gt
  | .ge => .lt
  | .eq => .ne
  | .ne => .eq

inductive Operator where
  | add
  | sub
  | mul
  | shl
  | compare (c : Comparison)
  | other (text : String)
deriving DecidableEq, Repr

def Operator.text : Operator → String
  | .add => "+"
  | .sub => "-"
  | .mul => "*"
  | .shl => "<<"
  | .compare c => c.text
  | .other s => s

def Operator.ofText (s : String) : Operator :=
  match [Operator.add, .sub, .mul, .shl, .compare .lt, .compare .le, .compare .gt, .compare .ge,
      .compare .eq, .compare .ne].find? (·.text == s) with
  | some op => op
  | none => .other s

/-- Flips a comparison; other operators stay. -/
def Operator.flip : Operator → Operator
  | .compare c => .compare c.flip
  | op => op

/-- Negates a comparison; other operators stay. -/
def Operator.negate : Operator → Operator
  | .compare c => .compare c.negate
  | op => op

end LoopConflict.Program
