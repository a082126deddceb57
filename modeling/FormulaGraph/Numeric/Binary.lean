/-!
Binary floating-point numbers in sign and magnitude form. A magnitude counts
the non-negative numbers of the format in increasing order, so zero is 0, the
smallest positive number is 1, and everything above the magnitude of infinity
is a NaN. Arithmetic is exact on integers and rounded once, to the nearest
number with ties to the even magnitude.
-/

namespace FormulaGraph.Numeric

structure Format where
  fractionBits : Nat
  exponentBits : Nat

namespace Format

def single : Format := ⟨23, 8⟩

def double : Format := ⟨52, 11⟩

/-- The exponent of two of the smallest positive number. -/
def unitExponent (F : Format) : Int :=
  2 - (Nat.pow 2 (F.exponentBits - 1) : Nat) - F.fractionBits

/-- The magnitude of infinity, one past the largest finite number. -/
def infinity (F : Format) : Nat :=
  (Nat.pow 2 F.exponentBits - 1) * Nat.pow 2 F.fractionBits

/-- The magnitude of the NaN that operations produce. -/
def quiet (F : Format) : Nat :=
  F.infinity + Nat.pow 2 (F.fractionBits - 1)

/-- The integer factor of a finite magnitude: the number is
`significand * 2 ^ exponent`. -/
def significand (F : Format) (magnitude : Nat) : Nat :=
  if magnitude < Nat.pow 2 (F.fractionBits + 1) then magnitude
  else Nat.pow 2 F.fractionBits + magnitude % Nat.pow 2 F.fractionBits

/-- The power of two of a finite magnitude. -/
def exponent (F : Format) (magnitude : Nat) : Int :=
  if magnitude < Nat.pow 2 (F.fractionBits + 1) then F.unitExponent
  else F.unitExponent + (magnitude / Nat.pow 2 F.fractionBits - 1 : Nat)

end Format

/-- The quotient nearest to `num / den`, ties to the even quotient. -/
def roundDiv (num den : Nat) : Nat :=
  let low := num / den
  let twice := 2 * (num % den)
  if twice < den then low
  else if den < twice then low + 1
  else low + low % 2

/-- The integer `e` with `2 ^ e ≤ num / den < 2 ^ (e + 1)`, for positive
arguments. -/
def floorLog2 (num den : Nat) : Int :=
  let guess : Int := (num.log2 : Int) - den.log2
  if num * Nat.pow 2 (-guess).toNat < den * Nat.pow 2 guess.toNat then guess - 1 else guess

/-- The magnitude nearest to `num / den`; what is too large becomes infinity. -/
def Format.round (F : Format) (num den : Nat) : Nat :=
  if num = 0 then 0
  else
    let e := max (floorLog2 num den - F.fractionBits) F.unitExponent
    let m := roundDiv (num * Nat.pow 2 (-e).toNat) (den * Nat.pow 2 e.toNat)
    min ((e - F.unitExponent).toNat * Nat.pow 2 F.fractionBits + m) F.infinity

structure Binary (F : Format) where
  negative : Bool
  magnitude : Nat
deriving DecidableEq

abbrev Single := Binary .single

abbrev Double := Binary .double

namespace Binary

variable {F : Format}

def isNaN (x : Binary F) : Bool := F.infinity < x.magnitude

def isInfinite (x : Binary F) : Bool := x.magnitude = F.infinity

def isZero (x : Binary F) : Bool := x.magnitude = 0

def zero : Binary F := ⟨false, 0⟩

def infinity (negative : Bool) : Binary F := ⟨negative, F.infinity⟩

/-- The result of an operation without a value, such as a difference of
infinities. Its sign is set. -/
def invalid : Binary F := ⟨true, F.quiet⟩

def neg (x : Binary F) : Binary F := ⟨!x.negative, x.magnitude⟩

/-- The number nearest to `num / den` with the given sign. -/
def ofRatio (negative : Bool) (num den : Nat) : Binary F :=
  ⟨negative, F.round num den⟩

/-- The number nearest to `m * 2 ^ e` with the given sign. -/
def ofScaled (negative : Bool) (m : Nat) (e : Int) : Binary F :=
  ofRatio negative (m * Nat.pow 2 e.toNat) (Nat.pow 2 (-e).toNat)

def ofNat (n : Nat) : Binary F := ofRatio false n 1

def ofInt (i : Int) : Binary F := ofRatio (i < 0) i.natAbs 1

/-- The value of a finite number in units of `2 ^ e`, for `e` not above its
own exponent. -/
def units (x : Binary F) (e : Int) : Int :=
  let m := F.significand x.magnitude * Nat.pow 2 (F.exponent x.magnitude - e).toNat
  if x.negative then -m else m

/-- A zero sum is negative only when both terms are. -/
def add (x y : Binary F) : Binary F :=
  if x.isNaN then x
  else if y.isNaN then y
  else if x.isInfinite then
    if y.isInfinite && x.negative != y.negative then invalid else x
  else if y.isInfinite then y
  else
    let e := min (F.exponent x.magnitude) (F.exponent y.magnitude)
    let sum := x.units e + y.units e
    if sum = 0 then ⟨x.negative && y.negative, 0⟩
    else ofScaled (sum < 0) sum.natAbs e

def sub (x y : Binary F) : Binary F := x.add y.neg

def divNat (x : Binary F) (n : Nat) : Binary F :=
  if x.isNaN || x.isInfinite then x
  else
    let e := F.exponent x.magnitude
    ofRatio x.negative (F.significand x.magnitude * Nat.pow 2 e.toNat) (n * Nat.pow 2 (-e).toNat)

/-- The nearest integer of a finite number, halves away from zero. -/
def roundAway (x : Binary F) : Int :=
  let e := F.exponent x.magnitude
  let den := Nat.pow 2 (-e).toNat
  let n := (2 * (F.significand x.magnitude * Nat.pow 2 e.toNat) + den) / (2 * den)
  if x.negative then -n else n

/-- The nearest 32-bit integer, halves away from zero; what lies outside goes
to the nearer end and a NaN to zero. -/
def toInt32 (x : Binary F) : Int32 :=
  if x.isNaN then 0
  else if x.isInfinite then (if x.negative then Int32.minValue else Int32.maxValue)
  else Int32.ofIntClamp x.roundAway

/-- Rounding into another format. A NaN keeps its sign. -/
def convert {G : Format} (x : Binary F) : Binary G :=
  if x.isNaN then ⟨x.negative, G.quiet⟩
  else if x.isInfinite then infinity x.negative
  else ofScaled x.negative (F.significand x.magnitude) (F.exponent x.magnitude)

/-- Equality of values: the zeros are equal and a NaN differs from itself. -/
def equals (x y : Binary F) : Bool :=
  !x.isNaN && !y.isNaN && (x == y || (x.isZero && y.isZero))

instance : Add (Binary F) := ⟨add⟩

instance : Sub (Binary F) := ⟨sub⟩

instance : Neg (Binary F) := ⟨neg⟩

instance (n : Nat) : OfNat (Binary F) n := ⟨ofNat n⟩

instance : OfScientific (Binary F) where
  ofScientific digits down places :=
    if down then ofRatio false digits (Nat.pow 10 places) else ofNat (digits * Nat.pow 10 places)

end Binary

def Double.toSingle (x : Double) : Single := x.convert

def Single.toDouble (x : Single) : Double := x.convert

end FormulaGraph.Numeric
