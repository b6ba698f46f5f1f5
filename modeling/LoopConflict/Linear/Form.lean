import LoopConflict.Text.Decimal

/-!
Linear forms over named integer variables, and equations between them, with their text in the
modelling language: a sign stands between two terms, a unit coefficient and a zero constant are
left out.
-/
namespace LoopConflict.Linear

/-- A variable times a constant. -/
structure Term where
  coeff : Int64
  var : String
deriving DecidableEq, Repr

/-- The sum of the terms and a constant. -/
structure Form where
  terms : List Term
  const : Int64
deriving DecidableEq, Repr

/-- Both forms have the same value. -/
structure Constraint where
  name : String
  lhs : Form
  rhs : Form
deriving DecidableEq, Repr

/-- A word without its sign; the least word has no other form and keeps it. -/
def magnitude (n : Int64) : Int64 :=
  if n < 0 then -n else n

/-- A term without its sign. -/
def Term.body (t : Term) : String :=
  if magnitude t.coeff = 1 then t.var else Text.word (magnitude t.coeff) ++ "*" ++ t.var

/-- A term at the front of a form. -/
def Term.leading (t : Term) : String :=
  if t.coeff < 0 then "-" ++ t.body else t.body

/-- A term after another one. -/
def Term.following (t : Term) : String :=
  if t.coeff < 0 then " - " ++ t.body else " + " ++ t.body

/-- A constant after a term. -/
def followingConst (n : Int64) : String :=
  if n = 0 then ""
  else if n < 0 then " - " ++ Text.word (magnitude n)
  else " + " ++ Text.word n

def Form.text (e : Form) : String :=
  match e.terms with
  | [] => Text.word e.const
  | t :: rest => t.leading ++ Text.concat (rest.map Term.following) ++ followingConst e.const

def Constraint.text (c : Constraint) : String :=
  c.name ++ ": " ++ c.lhs.text ++ " = " ++ c.rhs.text

end LoopConflict.Linear
