import FormulaGraph.Numeric.Binary

/-!
Socket types, the values that sockets hold by default, and the conversion that
a link between sockets of different types stands for.
-/

namespace FormulaGraph

open Numeric

inductive SocketType where
  | bool | int | float | vector | color | rotation | matrix
deriving DecidableEq, Repr

namespace SocketType

def all : List SocketType := [bool, int, float, vector, color, rotation, matrix]

def name : SocketType → String
  | bool => "Bool"
  | int => "Int"
  | float => "Float"
  | vector => "Vector"
  | color => "Color"
  | rotation => "Rotation"
  | matrix => "Matrix"

/-- Rotations and matrices have no default of their own; their values come
from nodes. -/
def hasDefault : SocketType → Bool
  | rotation | matrix => false
  | _ => true

/-- The types whose values convert into each other. -/
def isNumeric : SocketType → Bool := hasDefault

/-- Whether a link may lead from the first type into the second. A vector and
a rotation convert as Euler angles. -/
def fits (source target : SocketType) : Bool :=
  source == target || (source.isNumeric && target.isNumeric) ||
    (source == vector && target == rotation) || (source == rotation && target == vector)

end SocketType

/-- The side of a node, or of the whole tree, that a socket is on. -/
inductive Side where
  | input | output
deriving DecidableEq, Repr

namespace Side

def name : Side → String
  | input => "Input"
  | output => "Output"

def opposite : Side → Side
  | input => output
  | output => input

end Side

structure Vec3 where
  x : Single
  y : Single
  z : Single
deriving DecidableEq

namespace Vec3

def splat (s : Single) : Vec3 := ⟨s, s, s⟩

/-- The components are summed from the left, then divided. -/
def mean (v : Vec3) : Single := (v.x + v.y + v.z).divNat 3

def equals (v w : Vec3) : Bool := v.x.equals w.x && v.y.equals w.y && v.z.equals w.z

end Vec3

/-- What a socket can hold. Equality is identity of the stored bits: a NaN is
equal to itself and the zeros differ. -/
inductive Value where
  | bool (b : Bool)
  | int (i : Int32)
  | float (x : Single)
  | vector (v : Vec3)
  | color (rgb : Vec3) (alpha : Single)
deriving DecidableEq

namespace Value

def type : Value → SocketType
  | bool _ => .bool
  | int _ => .int
  | float _ => .float
  | vector _ => .vector
  | color _ _ => .color

def equals : Value → Value → Bool
  | bool a, bool b => a == b
  | int a, int b => a == b
  | float a, float b => a.equals b
  | vector a, vector b => a.equals b
  | color a s, color b t => a.equals b && s.equals t
  | _, _ => false

/-- The value as one number; vectors and colours give their mean. -/
def toSingle : Value → Single
  | bool b => if b then 1 else 0
  | int i => .ofInt i.toInt
  | float x => x
  | vector v => v.mean
  | color rgb _ => rgb.mean

/-- The value as three numbers; a single number is repeated. -/
def toVec3 : Value → Vec3
  | vector v => v
  | color rgb _ => rgb
  | v => .splat v.toSingle

/-- The value that arrives at a socket of another type; none at a socket that
holds no default. Integers and booleans are made from the single number, so a
large integer is rounded to single precision on the way. -/
def convert (v : Value) : SocketType → Option Value
  | .bool => some (bool !v.toSingle.isZero)
  | .int => some (int v.toSingle.toInt32)
  | .float => some (float v.toSingle)
  | .vector => some (vector v.toVec3)
  | .color => match v with
    | color rgb alpha => some (color rgb alpha)
    | _ => some (color v.toVec3 1)
  | .rotation | .matrix => none

end Value

end FormulaGraph
