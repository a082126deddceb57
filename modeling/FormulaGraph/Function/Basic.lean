import FormulaGraph.Graph.Editor
import FormulaGraph.Kind

/-!
The functions a formula may call, and where each is available.
-/

namespace FormulaGraph

inductive Function where
  | add | sub | mult | div | pow | log | sqrt | invsqrt | nroot | abs | neg
  | round | floor | ceil | trunc | frac | mod | floormod | wrap | snap | pingpong | floordiv
  | sin | cos | tan | asin | acos | atan | sinh | cosh | tanh | rad | deg
  | min | smin | max | smax | lerp | mix | clamp | clampauto
  | mapl | mapst | mapsmo | mapsmoo | combixyz | rotaxis
deriving DecidableEq, Repr

namespace Function

/-- Every function, in the order of declaration. -/
def all : List Function :=
  [add, sub, mult, div, pow, log, sqrt, invsqrt, nroot, abs, neg,
   round, floor, ceil, trunc, frac, mod, floormod, wrap, snap, pingpong, floordiv,
   sin, cos, tan, asin, acos, atan, sinh, cosh, tanh, rad, deg,
   min, smin, max, smax, lerp, mix, clamp, clampauto,
   mapl, mapst, mapsmo, mapsmoo, combixyz, rotaxis]

def name : Function → String
  | add => "add"
  | sub => "sub"
  | mult => "mult"
  | div => "div"
  | pow => "pow"
  | log => "log"
  | sqrt => "sqrt"
  | invsqrt => "invsqrt"
  | nroot => "nroot"
  | abs => "abs"
  | neg => "neg"
  | round => "round"
  | floor => "floor"
  | ceil => "ceil"
  | trunc => "trunc"
  | frac => "frac"
  | mod => "mod"
  | floormod => "floormod"
  | wrap => "wrap"
  | snap => "snap"
  | pingpong => "pingpong"
  | floordiv => "floordiv"
  | sin => "sin"
  | cos => "cos"
  | tan => "tan"
  | asin => "asin"
  | acos => "acos"
  | atan => "atan"
  | sinh => "sinh"
  | cosh => "cosh"
  | tanh => "tanh"
  | rad => "rad"
  | deg => "deg"
  | min => "min"
  | smin => "smin"
  | max => "max"
  | smax => "smax"
  | lerp => "lerp"
  | mix => "mix"
  | clamp => "clamp"
  | clampauto => "clampauto"
  | mapl => "mapl"
  | mapst => "mapst"
  | mapsmo => "mapsmo"
  | mapsmoo => "mapsmoo"
  | combixyz => "combixyz"
  | rotaxis => "rotaxis"

/-- Whether the function belongs to the vector dialect alone. -/
def vectorOnly : Function → Bool
  | combixyz | rotaxis => true
  | _ => false

def ofDialect (dialect : Dialect) : List Function :=
  all.filter fun f => !f.vectorOnly || dialect.hasVectors

def ofName? (name : String) : Option Function := all.find? (·.name == name)

def inDialect? (name : String) (dialect : Dialect) : Option Function :=
  (ofName? name).filter fun f => !f.vectorOnly || dialect.hasVectors

def offeredBy (editor : Editor) : Function → Bool
  | mapst | mapsmo | mapsmoo | rotaxis => editor != .compositor
  | _ => true

/-- Parameters that take a single number only, by position. -/
def scalarPlaces : Function → List Nat
  | log | nroot | pingpong => [1]
  | clamp | clampauto => [1, 2]
  | rotaxis => [2]
  | _ => []

def allScalar : Function → Bool
  | floormod | rad | deg | smin | smax | min | max | combixyz => true
  | _ => false

end Function

end FormulaGraph
