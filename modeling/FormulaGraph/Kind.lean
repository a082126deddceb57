import FormulaGraph.Graph.Value

/-!
Kinds of operands, the plain values of each kind, and the two dialects of
formulas: plain mathematics, and vectors in brackets.
-/

namespace FormulaGraph

open Numeric

/-- What an operand is. An output can only be assigned to. -/
inductive Kind where
  | scalar | vector | boolean | rotation | matrix | output
deriving DecidableEq, Repr

namespace Kind

def all : List Kind := [scalar, vector, boolean, rotation, matrix, output]

def name : Kind → String
  | scalar => "Scalar"
  | vector => "Vector"
  | boolean => "Boolean"
  | rotation => "Rotation"
  | matrix => "Matrix"
  | output => "Output"

def ofName? (name : String) : Option Kind := all.find? (·.name == name)

/-- The letter that stands for the kind in tags. -/
def letter : Kind → Char
  | scalar => 'f'
  | vector => 'v'
  | boolean => 'b'
  | rotation => 'r'
  | matrix => 'm'
  | output => 'o'

/-- The socket type that carries values of the kind. -/
def socketType? : Kind → Option SocketType
  | scalar => some .float
  | vector => some .vector
  | boolean => some .bool
  | rotation => some .rotation
  | matrix => some .matrix
  | output => none

def ofSocketType : SocketType → Kind
  | .int | .float => scalar
  | .vector | .color => vector
  | .bool => boolean
  | .rotation => rotation
  | .matrix => matrix

def isNumeric : Kind → Bool
  | scalar | vector | boolean => true
  | rotation | matrix | output => false

/-- Whether the kind counts as a single number. -/
def isScalarLike : Kind → Bool
  | scalar | boolean => true
  | _ => false

end Kind

/-- A plain value. A rotation is a quaternion, its real part first; a matrix
is written column by column. -/
inductive Literal where
  | scalar (x : Single)
  | vector (v : Vec3)
  | boolean (b : Bool)
  | rotation (w x y z : Single)
  | matrix (entries : Vector Single 16)
deriving DecidableEq

namespace Literal

def kind : Literal → Kind
  | scalar _ => .scalar
  | vector _ => .vector
  | boolean _ => .boolean
  | rotation _ _ _ _ => .rotation
  | matrix _ => .matrix

def toSingle? : Literal → Option Single
  | scalar x => some x
  | boolean b => some (if b then 1 else 0)
  | _ => none

/-- The value as three numbers; a single number is repeated. -/
def toVec3? : Literal → Option Vec3
  | vector v => some v
  | l => l.toSingle?.map .splat

/-- The default of a socket that holds the value. -/
def toValue? : Literal → Option Value
  | scalar x => some (.float x)
  | vector v => some (.vector v)
  | boolean b => some (.bool b)
  | _ => none

end Literal

inductive Dialect where
  | math | vector
deriving DecidableEq, Repr

namespace Dialect

def all : List Dialect := [math, vector]

def name : Dialect → String
  | math => "Math"
  | vector => "Vector"

def ofName? (name : String) : Option Dialect := all.find? (·.name == name)

/-- Whether brackets and the functions on vectors are allowed. -/
def hasVectors (d : Dialect) : Bool := d == vector

def outputKind : Dialect → Kind
  | math => .scalar
  | vector => .vector

end Dialect

end FormulaGraph
