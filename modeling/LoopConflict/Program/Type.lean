import LoopConflict.Text.Decimal

/-!
Types of values: basic types, pointers, slices, arrays, structs, declared types, type parameters
with their constraints, and types that are only known by their text. A declared type is named by its
position in a list of declarations, so that it can mention itself. The core type of a type parameter
is the underlying type that all types of its constraint share.
-/
namespace LoopConflict.Program

/-- The predeclared types. -/
inductive Basic where
  | invalid
  | bool
  | int
  | int8
  | int16
  | int32
  | int64
  | uint
  | uint8
  | uint16
  | uint32
  | uint64
  | uintptr
  | float32
  | float64
  | complex64
  | complex128
  | string
  | unsafePointer
  | untypedBool
  | untypedInt
  | untypedRune
  | untypedFloat
  | untypedComplex
  | untypedString
  | untypedNil
  /-- The same type as `uint8`, under its own name. -/
  | byte
  /-- The same type as `int32`, under its own name. -/
  | rune
deriving DecidableEq, Repr

def Basic.name : Basic → String
  | .invalid => "invalid type"
  | .bool => "bool"
  | .int => "int"
  | .int8 => "int8"
  | .int16 => "int16"
  | .int32 => "int32"
  | .int64 => "int64"
  | .uint => "uint"
  | .uint8 => "uint8"
  | .uint16 => "uint16"
  | .uint32 => "uint32"
  | .uint64 => "uint64"
  | .uintptr => "uintptr"
  | .float32 => "float32"
  | .float64 => "float64"
  | .complex64 => "complex64"
  | .complex128 => "complex128"
  | .string => "string"
  | .unsafePointer => "unsafe.Pointer"
  | .untypedBool => "untyped bool"
  | .untypedInt => "untyped int"
  | .untypedRune => "untyped rune"
  | .untypedFloat => "untyped float"
  | .untypedComplex => "untyped complex"
  | .untypedString => "untyped string"
  | .untypedNil => "untyped nil"
  | .byte => "byte"
  | .rune => "rune"

/-- Every predeclared type. -/
def Basic.all : List Basic :=
  [.invalid, .bool, .int, .int8, .int16, .int32, .int64, .uint, .uint8, .uint16, .uint32, .uint64,
    .uintptr, .float32, .float64, .complex64, .complex128, .string, .unsafePointer, .untypedBool,
    .untypedInt, .untypedRune, .untypedFloat, .untypedComplex, .untypedString, .untypedNil, .byte, .rune]

def Basic.ofName? (name : String) : Option Basic :=
  Basic.all.find? (·.name == name)

/-- The type itself, whatever name it goes by. -/
def Basic.resolved : Basic → Basic
  | .byte => .uint8
  | .rune => .int32
  | b => b

def Basic.isInteger (b : Basic) : Bool :=
  match b with
  | .int | .int8 | .int16 | .int32 | .int64 | .uint | .uint8 | .uint16 | .uint32 | .uint64 | .uintptr
  | .untypedInt | .untypedRune | .byte | .rune => true
  | _ => false

def Basic.isFloat (b : Basic) : Bool :=
  match b with
  | .float32 | .float64 | .untypedFloat => true
  | _ => false

inductive Ty where
  | basic (b : Basic)
  | pointer (elem : Ty)
  | slice (elem : Ty)
  | array (elem : Ty) (length : Int)
  | struct (fields : List (String × Ty))
  /-- The declared type at a position of the declarations. -/
  | named (index : Nat)
  /-- A type parameter, constrained by all of the given unions. A term of a union is a type, or with
      `true` all types that have it as their underlying type. -/
  | parameter (name : String) (unions : List (List (Bool × Ty)))
  /-- Any other type, known by its text. -/
  | other (text : String)
deriving BEq, Repr, Inhabited

/-- A declared type. -/
structure TypeDecl where
  name : String
  underlying : Ty
deriving Repr, Inhabited

/-- Whether the names of declared types are written with their package. -/
inductive Naming where
  | relative
  | qualified
deriving DecidableEq, Repr

/-- The package that all declared types and functions belong to. -/
def packagePath : String := "foo"

def Naming.write (n : Naming) (name : String) : String :=
  match n with
  | .relative => name
  | .qualified => packagePath ++ "." ++ name

/-- The name of the declared type at a position. -/
def declName (decls : List TypeDecl) (i : Nat) : String :=
  ((decls[i]?).map TypeDecl.name).getD ""

mutual

/-- The text of a type. -/
def Ty.text (decls : List TypeDecl) (n : Naming) : Ty → String
  | .basic b => b.name
  | .pointer t => "*" ++ t.text decls n
  | .slice t => "[]" ++ t.text decls n
  | .array t length => "[" ++ Text.int length ++ "]" ++ t.text decls n
  | .struct fields => "struct\x7b" ++ Text.joined "; " (fieldTexts decls n fields) ++ "\x7d"
  | .named i => n.write (declName decls i)
  | .parameter name _ => name
  | .other s => s

/-- Each field's name and type. -/
def fieldTexts (decls : List TypeDecl) (n : Naming) : List (String × Ty) → List String
  | [] => []
  | (name, t) :: rest => (name ++ " " ++ t.text decls n) :: fieldTexts decls n rest

end

mutual

/-- The type with every other name of a basic type resolved. -/
def Ty.resolved : Ty → Ty
  | .basic b => .basic b.resolved
  | .pointer t => .pointer t.resolved
  | .slice t => .slice t.resolved
  | .array t length => .array t.resolved length
  | .struct fields => .struct (resolvedFields fields)
  | t => t

def resolvedFields : List (String × Ty) → List (String × Ty)
  | [] => []
  | (name, t) :: rest => (name, t.resolved) :: resolvedFields rest

end

/-- Both are the same type. -/
def Ty.isIdentical (s t : Ty) : Bool :=
  s.resolved == t.resolved

/-- Looks through at most `fuel` declarations. -/
def Ty.underlyingWithin (decls : List TypeDecl) : Nat → Ty → Ty
  | fuel + 1, .named i =>
    match decls[i]? with
    | some d => d.underlying.underlyingWithin decls fuel
    | none => .basic .invalid
  | 0, .named _ => .basic .invalid
  | _, t => t

/-- The type that a declared type stands for; any other type stands for itself. -/
def Ty.underlying (decls : List TypeDecl) (t : Ty) : Ty :=
  t.underlyingWithin decls decls.length

/-- A type, or all types with the same underlying type. -/
structure TypeTerm where
  tilde : Bool
  type : Ty
deriving Repr

/-- No type belongs to both terms. -/
def TypeTerm.isDisjoint (decls : List TypeDecl) (x y : TypeTerm) : Bool :=
  let s := if y.tilde then x.type.underlying decls else x.type
  let t := if x.tilde then y.type.underlying decls else y.type
  !s.isIdentical t

/-- The types of both terms, if there are any. -/
def TypeTerm.inter? (decls : List TypeDecl) (x y : TypeTerm) : Option TypeTerm :=
  if x.isDisjoint decls y then none else if !x.tilde || y.tilde then some x else some y

/-- Takes up a term: if it meets a term of the list, the larger one of both stays. -/
def absorb (decls : List TypeDecl) (y : TypeTerm) : List TypeTerm → List TypeTerm
  | [] => [y]
  | x :: rest =>
    if x.isDisjoint decls y then x :: absorb decls y rest
    else (if x.tilde || !y.tilde then x else y) :: rest

/-- The same types in terms that have no type in common. -/
def disjointTerms (decls : List TypeDecl) (terms : List TypeTerm) : List TypeTerm :=
  terms.foldl (fun acc t => absorb decls t acc) []

/-- The types that belong to one term of each list. -/
def interTerms (decls : List TypeDecl) (xs ys : List TypeTerm) : List TypeTerm :=
  disjointTerms decls (xs.flatMap fun x => ys.filterMap fun y => x.inter? decls y)

/-- The terms of a constraint; without unions there is no restriction. -/
def constraintTerms (decls : List TypeDecl) : List (List (Bool × Ty)) → List TypeTerm
  | [] => []
  | first :: rest =>
    let terms (u : List (Bool × Ty)) := disjointTerms decls (u.map fun t => ⟨t.1, t.2⟩)
    rest.foldl (fun acc u => interTerms decls acc (terms u)) (terms first)

/-- The single underlying type of a type; a type parameter has one if all types of its constraint
    share it. -/
def Ty.core? (decls : List TypeDecl) (t : Ty) : Option Ty :=
  match t with
  | .parameter _ unions =>
    match (constraintTerms decls unions).map fun x => x.type.underlying decls with
    | [] => none
    | first :: rest => if rest.all first.isIdentical then some first else none
  | t => some (t.underlying decls)

/-- The core type is an integer type. -/
def Ty.isInteger (decls : List TypeDecl) (t : Ty) : Bool :=
  match t.core? decls with
  | some (.basic b) => b.isInteger
  | _ => false

/-- Values of the type can count iterations: integers, floats and untyped pointers. -/
def Ty.isCounter (decls : List TypeDecl) (t : Ty) : Bool :=
  match t.core? decls with
  | some (.basic b) => b.isInteger || b.isFloat || b == .unsafePointer
  | _ => false

end LoopConflict.Program
