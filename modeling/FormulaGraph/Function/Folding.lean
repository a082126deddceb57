import FormulaGraph.Function.Basic
import FormulaGraph.Numeric.Elementary

/-!
Functions that are evaluated on plain numbers instead of becoming nodes.
-/

namespace FormulaGraph.Function

open Numeric

/-- The value of a function on numbers, for the functions that are folded. -/
def fold? : Function → List Double → Option Double
  | sin, x :: _ => some x.sin
  | cos, x :: _ => some x.cos
  | tan, x :: _ => some x.tan
  | asin, x :: _ => some x.asin
  | acos, x :: _ => some x.acos
  | atan, x :: _ => some x.atan
  | sinh, x :: _ => some x.sinh
  | cosh, x :: _ => some x.cosh
  | tanh, x :: _ => some x.tanh
  | sqrt, x :: _ => some x.sqrt
  | invsqrt, x :: _ => some x.inverseSqrt
  | log, x :: base :: _ => some (x.log base)
  | rad, x :: _ => some x.toRadians
  | deg, x :: _ => some x.toDegrees
  | _, _ => none

def folds : Function → Bool
  | sin | cos | tan | asin | acos | atan | sinh | cosh | tanh
  | sqrt | invsqrt | log | rad | deg => true
  | _ => false

end FormulaGraph.Function
