import FormulaGraph.Numeric.Binary

/-!
Elementary functions on double-precision numbers, computed by the platform's
arithmetic. A NaN argument is returned as it is.
-/

namespace FormulaGraph.Numeric.Double

def toFloat (x : Double) : Float :=
  Float.ofBits ((if x.negative then 0x8000000000000000 else 0) + x.magnitude.toUInt64)

def ofFloat (f : Float) : Double :=
  if f.isNaN then .invalid
  else
    let bits := f.toBits
    ⟨bits >>> 63 != 0, (bits &&& 0x7fffffffffffffff).toNat⟩

def lift (f : Float → Float) (x : Double) : Double :=
  if x.isNaN then x else ofFloat (f x.toFloat)

def lift₂ (f : Float → Float → Float) (x y : Double) : Double :=
  if x.isNaN then x else if y.isNaN then y else ofFloat (f x.toFloat y.toFloat)

def pi : Float := Float.ofBits 0x400921fb54442d18

def sin : Double → Double := lift Float.sin

def cos : Double → Double := lift Float.cos

def tan : Double → Double := lift Float.tan

def asin : Double → Double := lift Float.asin

def acos : Double → Double := lift Float.acos

def atan : Double → Double := lift Float.atan

def sinh : Double → Double := lift Float.sinh

def cosh : Double → Double := lift Float.cosh

def tanh : Double → Double := lift Float.tanh

def sqrt : Double → Double := lift Float.sqrt

def inverseSqrt : Double → Double := lift fun x => 1 / x.sqrt

/-- Logarithm to a base, as a quotient of natural logarithms. -/
def log : Double → Double → Double := lift₂ fun x base => x.log / base.log

def toRadians : Double → Double := lift (· * (pi / 180))

def toDegrees : Double → Double := lift (· * (180 / pi))

end FormulaGraph.Numeric.Double
