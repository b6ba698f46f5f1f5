import LoopConflict.Linear.Equation
import LoopConflict.Linear.Model

/-!
A bounded search for integer solutions of a model. Variables are tried in the order of their
declaration and values in ascending order, so the first solution is the least one. A node is pruned
if the range of some equation's left side misses its right side; ranges that are no words do not
prune. An equation with a single open variable forces its value. The search visits at most `budget`
nodes.
-/
namespace LoopConflict.Linear

inductive Status where
  | unknown
  | feasible
  | infeasible
deriving DecidableEq, Repr

def Status.text : Status → String
  | .unknown => "unknown"
  | .feasible => "feasible"
  | .infeasible => "infeasible"

/-- The verdict on a model, with a solution for every declared variable if there is one. -/
structure Result where
  status : Status
  witness : List (String × Int64)
deriving DecidableEq, Repr

def Result.text (r : Result) : String :=
  match r.status with
  | .feasible =>
    "feasible (" ++ Text.joined ", " (r.witness.map fun a => a.1 ++ "=" ++ Text.word a.2) ++ ")"
  | s => s.text

/-- The values between two words, both included. -/
structure Range where
  lo : Int64
  hi : Int64
deriving DecidableEq, Repr, Inhabited

/-- The values considered for a variable. A missing bound is replaced by zero, or by the other bound
    where zero lies outside. -/
def Var.range (v : Var) : Range :=
  match v.lower, v.upper with
  | some lo, some hi => ⟨lo, hi⟩
  | some lo, none => ⟨lo, lo⟩
  | none, some hi => ⟨if hi < 0 then hi else 0, hi⟩
  | none, none => ⟨0, 0⟩

/-- No value lies between the bounds. -/
def Var.isEmpty (v : Var) : Bool :=
  match v.lower, v.upper with
  | some lo, some hi => hi < lo
  | _, _ => false

/-- Both bounds are present. -/
def Var.isBounded (v : Var) : Bool :=
  v.lower.isSome && v.upper.isSome

/-- The values chosen so far, by position of the variable. -/
abbrev Choice := List (Nat × Int64)

/-- Adds `a * x` to a sum that is only known while it is a word. -/
def plus (sum : Option Int64) (a x : Int64) : Option Int64 := do
  let s ← sum
  let p ← Word.mul? a x
  Word.add? s p

/-- The values that a variable can still take. -/
def Choice.rangeOf (choice : Choice) (ranges : List Range) (i : Nat) : Range :=
  match choice.lookup i with
  | some x => ⟨x, x⟩
  | none => (ranges[i]?).getD default

/-- The least value of an equation's left side, if it is a word. -/
def Equation.least (e : Equation) (choice : Choice) (ranges : List Range) : Option Int64 :=
  e.terms.foldl (fun sum t =>
    let r := choice.rangeOf ranges t.1
    plus sum t.2 (if t.2 < 0 then r.hi else r.lo)) (some 0)

/-- The greatest value of an equation's left side, if it is a word. -/
def Equation.greatest (e : Equation) (choice : Choice) (ranges : List Range) : Option Int64 :=
  e.terms.foldl (fun sum t =>
    let r := choice.rangeOf ranges t.1
    plus sum t.2 (if t.2 < 0 then r.lo else r.hi)) (some 0)

/-- The right side of an equation lies in the range of its left side, as far as that is known. -/
def Equation.isPossible (e : Equation) (choice : Choice) (ranges : List Range) : Bool :=
  !((e.least choice ranges).any (e.rhs < ·)) && !((e.greatest choice ranges).any (· < e.rhs))

/-- An equation holds exactly under a complete choice. -/
def Equation.holds (e : Equation) (choice : Choice) : Bool :=
  e.terms.foldr (fun t sum => t.2.toInt * ((choice.lookup t.1).getD 0).toInt + sum) 0 == e.rhs.toInt

/-- What an equation says about the variable at `i`. -/
inductive Forcing where
  /-- Another variable is open, or the sum of the others is unknown. -/
  | free
  | value (x : Int64)
  /-- No integer satisfies the equation. -/
  | impossible
deriving DecidableEq, Repr

def Equation.forcing (e : Equation) (choice : Choice) (i : Nat) : Forcing :=
  let others := e.terms.filter (·.1 ≠ i)
  match e.terms.lookup i with
  | none => .free
  | some a =>
    if others.all fun t => (choice.lookup t.1).isSome then
      let rest := others.foldl (fun sum t => plus sum t.2 ((choice.lookup t.1).getD 0)) (some 0)
      match rest.bind (Word.sub? e.rhs) with
      | none => .free
      | some d => if d % a = 0 then .value (d / a) else .impossible
    else .free

/-- The first equation that is not free on the variable at `i` decides. -/
def forced (equations : List Equation) (choice : Choice) (i : Nat) : Forcing :=
  match equations with
  | [] => .free
  | e :: rest =>
    match e.forcing choice i with
    | .free => forced rest choice i
    | f => f

/-- The values to try for the variable at `i`, if there are any. -/
def candidates? (equations : List Equation) (ranges : List Range) (choice : Choice) (i : Nat) :
    Option Range :=
  let r := (ranges[i]?).getD default
  match forced equations choice i with
  | .free => if r.lo ≤ r.hi then some r else none
  | .value x => if r.lo ≤ x && x ≤ r.hi then some ⟨x, x⟩ else none
  | .impossible => none

/-- How a search ends. -/
inductive Outcome where
  | found (choice : Choice)
  | exhausted
  /-- The budget ended before the search did. -/
  | cut
deriving DecidableEq, Repr

/-- Tries `x` and the next `above` words after it until one succeeds; `wasCut` tells whether some
    earlier value was given up for lack of budget. -/
def tryValues (child : Int64 → Nat → Outcome × Nat) (x : Int64) (wasCut : Bool) (above budget : Nat) :
    Outcome × Nat :=
  match child x budget with
  | (.found choice, left) => (.found choice, left)
  | (outcome, left) =>
    let wasCut := wasCut || outcome = .cut
    if left = 0 then (.cut, 0)
    else match above with
      | 0 => (if wasCut then .cut else .exhausted, left)
      | above + 1 => tryValues child (x + 1) wasCut above left

/-- Searches the values of the variables in `order`, given a choice for those before them; also gives
    the budget that is left. -/
def search (equations : List Equation) (ranges : List Range) :
    List Nat → Choice → Nat → Outcome × Nat
  | _, _, 0 => (.cut, 0)
  | [], choice, left + 1 =>
    if equations.all (·.isPossible choice ranges) && equations.all (·.holds choice) then
      (.found choice, left)
    else (.exhausted, left)
  | i :: order, choice, left + 1 =>
    if equations.all (·.isPossible choice ranges) then
      match candidates? equations ranges choice i with
      | none => (.exhausted, left)
      | some r =>
        tryValues (fun x => search equations ranges order ((i, x) :: choice)) r.lo false
          (r.hi.toInt - r.lo.toInt).toNat left
    else (.exhausted, left)

/-- The equations of a model that have variables, or the verdict if a constraint settles it. -/
def equationsOf (index : String → Option Nat) : List Constraint → Except Status (List Equation)
  | [] => .ok []
  | c :: rest =>
    match normalize index c with
    | .infeasible => .error .infeasible
    | .unknown => .error .unknown
    | .equation e => do
      let es ← equationsOf index rest
      return if e.terms.isEmpty then es else e :: es

/-- The number of nodes visited by default. -/
def defaultBudget : Nat := 65536

/-- The variable at `i` occurs in some equation. -/
def isUsed (equations : List Equation) (i : Nat) : Bool :=
  equations.any fun e => e.terms.any (·.1 == i)

/-- Decides whether a model has an integer solution. A budget that is not positive stands for the
    default. -/
def solve (m : Model) (budget : Int) : Result :=
  match equationsOf (lastIndex? (m.vars.map Var.name)) m.constraints with
  | .error s => ⟨s, []⟩
  | .ok equations =>
    if m.vars.any Var.isEmpty then ⟨.infeasible, []⟩
    else if m.vars.zipIdx.any (fun p => isUsed equations p.2 && !p.1.isBounded) then ⟨.unknown, []⟩
    else
      let order := (List.range m.vars.length).filter (isUsed equations)
      let nodes := if budget ≤ 0 then defaultBudget else budget.toNat
      match search equations (m.vars.map Var.range) order [] nodes with
      | (.found choice, _) =>
        ⟨.feasible, m.vars.zipIdx.map fun p => (p.1.name, (choice.lookup p.2).getD p.1.range.lo)⟩
      | (.exhausted, _) => ⟨.infeasible, []⟩
      | (.cut, _) => ⟨.unknown, []⟩

end LoopConflict.Linear
