import ShaderRepair.Text

/-!
# Value types

The built-in types of the shading language: void, five scalars, vectors of two to four scalars, and
floating-point matrices with two to four columns and rows; and `error`, the type of an expression
about which nothing is known. This file contains:
- the types, built so that only existing vectors and matrices can be written;
- `ValueType.vectorOf` and friends, which answer `error` for a shape that does not exist;
- scalar, shape, rank and the classes of types.
-/

namespace ShaderRepair

/-- The scalars, lowest rank first. -/
inductive Scalar where
  | bool
  | int
  | uint
  | float
  | double
  deriving DecidableEq, Repr

/-- The scalars that matrices are made of. -/
inductive Floating where
  | float
  | double
  deriving DecidableEq, Repr

/-- The extent of a vector or of one side of a matrix. -/
inductive Dim where
  | two
  | three
  | four
  deriving DecidableEq, Repr

/-- What a type is made of. -/
inductive Base where
  | error
  | void
  | scalar (s : Scalar)
  deriving DecidableEq, Repr

inductive ValueType where
  | error
  | void
  | scalar (s : Scalar)
  | vector (s : Scalar) (size : Dim)
  | matrix (f : Floating) (columns rows : Dim)
  deriving DecidableEq, Repr

namespace Scalar

def all : List Scalar :=
  [.bool, .int, .uint, .float, .double]

def rank : Scalar → Nat
  | .bool => 1
  | .int => 2
  | .uint => 3
  | .float => 4
  | .double => 5

def name : Scalar → Text
  | .bool => Text.ascii "bool"
  | .int => Text.ascii "int"
  | .uint => Text.ascii "uint"
  | .float => Text.ascii "float"
  | .double => Text.ascii "double"

/-- The letter before `vec` and `mat`. -/
def letter : Scalar → Text
  | .bool => Text.ascii "b"
  | .int => Text.ascii "i"
  | .uint => Text.ascii "u"
  | .float => []
  | .double => Text.ascii "d"

def floating? : Scalar → Option Floating
  | .float => some .float
  | .double => some .double
  | _ => none

end Scalar

namespace Floating

def scalar : Floating → Scalar
  | .float => .float
  | .double => .double

end Floating

namespace Dim

def all : List Dim :=
  [.two, .three, .four]

def toNat : Dim → Nat
  | .two => 2
  | .three => 3
  | .four => 4

def ofInt? (n : Int) : Option Dim :=
  all.find? fun d => (d.toNat : Int) = n

end Dim

namespace Base

/-- Bases are numbered from `error` to `double`; every other number stands for `error`. -/
def ofCode : Nat → Base
  | 1 => .void
  | 2 => .scalar .bool
  | 3 => .scalar .int
  | 4 => .scalar .uint
  | 5 => .scalar .float
  | 6 => .scalar .double
  | _ => .error

def name : Base → Text
  | .error => Text.ascii "error"
  | .void => Text.ascii "void"
  | .scalar s => s.name

/-- The type that is this base and nothing more. -/
def type : Base → ValueType
  | .error => .error
  | .void => .void
  | .scalar s => .scalar s

end Base

namespace ValueType

/-! ## Building types -/

/-- The vector over a base, if there is one of that size. -/
def vectorOf (b : Base) (size : Int) : ValueType :=
  match b, Dim.ofInt? size with
  | .scalar s, some n => .vector s n
  | _, _ => .error

/-- The matrix over a base, if there is one of that shape. -/
def matrixOf (b : Base) (columns rows : Int) : ValueType :=
  match b, Dim.ofInt? columns, Dim.ofInt? rows with
  | .scalar s, some c, some r =>
    match s.floating? with
    | some f => .matrix f c r
    | none => .error
  | _, _, _ => .error

/-- The type with the shape of `t` over another base. -/
def withBase (t : ValueType) (b : Base) : ValueType :=
  match t, b with
  | .void, .void => .void
  | .scalar _, .scalar s => .scalar s
  | .vector _ n, .scalar s => .vector s n
  | .matrix _ c r, .scalar s =>
    match s.floating? with
    | some f => .matrix f c r
    | none => .error
  | _, _ => .error

/-! ## Parts of a type -/

def base : ValueType → Base
  | .error => .error
  | .void => .void
  | .scalar s => .scalar s
  | .vector s _ => .scalar s
  | .matrix f _ _ => .scalar f.scalar

/-- The scalar a type is made of; void and `error` are their own. -/
def underlying (t : ValueType) : ValueType :=
  t.base.type

def columns : ValueType → Nat
  | .vector _ n => n.toNat
  | .matrix _ c _ => c.toNat
  | _ => 1

def rows : ValueType → Nat
  | .matrix _ _ r => r.toNat
  | _ => 1

/-- The dimensions: none for void and `error`, one for a scalar or a vector, two for a matrix. -/
def shape : ValueType → List Nat
  | .error => []
  | .void => []
  | .scalar _ => [1]
  | .vector _ n => [n.toNat]
  | .matrix _ c r => [c.toNat, r.toNat]

/-- Types are ranked by their scalar. -/
def rank (t : ValueType) : Int :=
  match t.base with
  | .error => -1
  | .void => 0
  | .scalar s => s.rank

/-! ## Classes -/

def isError (t : ValueType) : Bool :=
  t == .error

def isVoid (t : ValueType) : Bool :=
  t == .void

/-- Exactly the scalar `bool`, not a vector of them. -/
def isBool (t : ValueType) : Bool :=
  t == .scalar .bool

def isScalar : ValueType → Bool
  | .scalar _ => true
  | _ => false

def isVector : ValueType → Bool
  | .vector _ _ => true
  | _ => false

def isMatrix : ValueType → Bool
  | .matrix _ _ _ => true
  | _ => false

/-- A scalar, a vector or a matrix. -/
def isValue (t : ValueType) : Bool :=
  !t.isError && !t.isVoid

def isInteger (t : ValueType) : Bool :=
  t.base == .scalar .int || t.base == .scalar .uint

def isFloating (t : ValueType) : Bool :=
  t.base == .scalar .float || t.base == .scalar .double

def isNumeric (t : ValueType) : Bool :=
  t.isInteger || t.isFloating

/-! ## Names -/

def name : ValueType → Text
  | .error => Text.ascii "error"
  | .void => Text.ascii "void"
  | .scalar s => s.name
  | .vector s n => s.letter ++ Text.ascii "vec" ++ Text.ofNat n.toNat
  | .matrix f c r =>
    let square := f.scalar.letter ++ Text.ascii "mat" ++ Text.ofNat c.toNat
    if c = r then square else square ++ Text.ascii "x" ++ Text.ofNat r.toNat

/-- All spellings of a type; a square matrix may be written with both its sides. -/
def names (t : ValueType) : List Text :=
  match t with
  | .matrix _ c r =>
    if c = r then [t.name, t.name ++ Text.ascii "x" ++ Text.ofNat r.toNat] else [t.name]
  | _ => [t.name]

end ValueType

end ShaderRepair
