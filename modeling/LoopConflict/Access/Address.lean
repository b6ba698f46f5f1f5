import LoopConflict.Access.Affine

/-!
Loads and stores, and the address computations that they depend on: the element and field addresses
that are reached from an access along operands.
-/
namespace LoopConflict.Access

open Loop (Forest LoopId)
open Program (Function Place Value Operation)
open Evolution (Expr Context Query)

/-- The operation reads or writes memory. -/
def isAccess : Operation → Bool
  | .load _ => true
  | .store _ _ => true
  | _ => false

/-- The operation computes an element's or a field's address. -/
def isAddressStep : Operation → Bool
  | .indexAddress _ _ => true
  | .fieldAddress _ _ => true
  | _ => false

/-- The values that an access is followed from: the address, or with `wide` all operands. The only
    operand of a unary operation counts as an address. -/
def accessRoots (wide : Bool) : Operation → List Value
  | .load x => [x]
  | .unary _ x => [x]
  | .store x y => if wide then [x, y] else [x]
  | operation => if wide then operation.operands else []

/-- The places of the instructions that compute the operands of the one at `p`. -/
def operandPlaces (f : Function) (p : Place) : List Place :=
  match f.operation? p with
  | some operation => operation.operands.filterMap Value.place?
  | none => []

/-- The address computations that an access depends on, in the order of their first visit. -/
def addressSteps (f : Function) (access : Place) (wide : Bool) : List Place :=
  let roots := ((f.operation? access).map (accessRoots wide)).getD []
  let visited := Graph.explore (operandPlaces f) (f.places.erase access) (roots.filterMap Value.place?)
  visited.filter fun p => ((f.operation? p).map isAddressStep).getD false

/-- The pointer that an address computation offsets from. -/
def stepBase? (f : Function) (step : Place) : Option Value :=
  match f.operation? step with
  | some (.indexAddress x _) => some x
  | some (.fieldAddress x _) => some x
  | _ => none

/-- The offset that an address computation adds to its base: an element's index or a field's number. -/
def stepIndex (step : Place) : Query Expr := do
  match (← get).function.operation? step with
  | some (.indexAddress _ index) => Query.evolution index
  | some (.fieldAddress _ field) => Query.const (Int64.ofNat field)
  | _ => Query.const 0

/-- The first base of the given steps that is not an address computation itself. -/
def rootBase? (f : Function) (steps : List Place) : Option Value :=
  (steps.filterMap (stepBase? f)).find? fun v => !((f.definition? v).map isAddressStep).getD false

/-- An address by the value that it is computed from and the fields selected on the way. -/
structure AddressKey where
  root : Value
  fields : List Nat
deriving DecidableEq, Repr

/-- The fields of a key, each after a dot. -/
def AddressKey.fieldsText (k : AddressKey) : String :=
  Text.concat (k.fields.map fun n => "." ++ Text.nat n)

/-- The key of an address that is the same in every iteration of the loop, through at most `fuel`
    fields. -/
def invariantAddressWithin (F : Forest) (l : LoopId) : (fuel : Nat) → Value → Option AddressKey
  | 0, _ => none
  | fuel + 1, v =>
    match F.function.definition? v with
    | some (.fieldAddress x field) =>
      (invariantAddressWithin F l fuel x).map fun k => { k with fields := k.fields ++ [field] }
    | _ => if F.defines l v then none else some ⟨v, []⟩

/-- The key of an address that is the same in every iteration of the loop: a value from outside of the
    loop, or a field of such an address. -/
def invariantAddress? (F : Forest) (l : LoopId) (v : Value) : Option AddressKey :=
  invariantAddressWithin F l (F.function.places.length + 1) v

/-- Some instruction inside of the loop stores to the address. -/
def storesTo (F : Forest) (l : LoopId) (k : AddressKey) : Bool :=
  F.function.places.any fun p =>
    F.contains l p.block &&
      match F.function.operation? p with
      | some (.store address _) => invariantAddress? F l address == some k
      | _ => false

/-- The address that a value is loaded from, if all its loads in the loop give the same value. -/
def stableLoad? (F : Forest) (l : LoopId) (v : Value) : Option AddressKey :=
  match F.function.definition? v with
  | some (.load address) => (invariantAddress? F l address).filter fun k => !storesTo F l k
  | _ => none

end LoopConflict.Access
