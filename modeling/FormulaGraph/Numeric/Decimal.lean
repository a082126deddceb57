import FormulaGraph.Numeric.Binary

/-!
Decimal text of double-precision numbers. Reading rounds the exact decimal
value once. Writing takes the fewest digits that read back, the nearest such
decimal, and lays them out without an exponent.
-/

namespace FormulaGraph.Numeric

/-- The number `digits * 10 ^ exponent`. -/
structure Decimal where
  digits : Nat
  exponent : Int
deriving DecidableEq

def digitValue (c : Char) : Nat := c.toNat - '0'.toNat

def digitsValue (cs : List Char) : Nat :=
  cs.foldl (fun n c => 10 * n + digitValue c) 0

namespace Decimal

/-- The double nearest to a decimal. The two bounds on the exponent only spare
the arithmetic on numbers far outside the range of a double. -/
def toDouble (negative : Bool) (d : Decimal) : Double :=
  if d.digits = 0 then ⟨negative, 0⟩
  else if 400 < d.exponent then .infinity negative
  else if d.exponent + d.digits.log2 < -401 then ⟨negative, 0⟩
  else .ofRatio negative (d.digits * Nat.pow 10 d.exponent.toNat) (Nat.pow 10 (-d.exponent).toNat)

/-- An optional exponent part: `e` or `E`, a sign, digits. -/
def readExponent : List Char → Option Int
  | [] => some 0
  | mark :: cs =>
    if mark = 'e' ∨ mark = 'E' then
      let (negative, ds) : Bool × List Char := match cs with
        | '-' :: ds => (true, ds)
        | '+' :: ds => (false, ds)
        | ds => (false, ds)
      if ds.isEmpty || !ds.all Char.isDigit then none
      else
        let n : Int := digitsValue ds
        some (if negative then -n else n)
    else none

/-- Digits with at most one point and an optional exponent; one digit at
least. -/
def read? (cs : List Char) : Option Decimal :=
  let whole := cs.takeWhile Char.isDigit
  let rest := cs.dropWhile Char.isDigit
  let (fraction, rest) : List Char × List Char := match rest with
    | '.' :: r => (r.takeWhile Char.isDigit, r.dropWhile Char.isDigit)
    | r => ([], r)
  if whole.isEmpty && fraction.isEmpty then none
  else (readExponent rest).map fun e =>
    ⟨digitsValue (whole ++ fraction), e - fraction.length⟩

/-- Plain positional text: no exponent, no trailing zeros after the point, and
no point without digits after it. -/
def text (d : Decimal) : String :=
  if 0 ≤ d.exponent then toString (d.digits * Nat.pow 10 d.exponent.toNat)
  else
    let places := (-d.exponent).toNat
    let whole := toString (d.digits / Nat.pow 10 places)
    let tail := (toString (d.digits % Nat.pow 10 places)).toList
    let fraction := List.replicate (places - tail.length) '0' ++ tail
    let fraction := (fraction.reverse.dropWhile (· == '0')).reverse
    if fraction.isEmpty then whole else whole ++ "." ++ String.ofList fraction

end Decimal

namespace Double

/-- The text of a number: a decimal, or a name of infinity or NaN in any case,
with an optional sign. -/
def ofText? (text : String) : Option Double :=
  let cs := text.toList
  let (negative, body) : Bool × List Char := match cs with
    | '-' :: r => (true, r)
    | '+' :: r => (false, r)
    | r => (false, r)
  match Decimal.read? body with
  | some d => some (d.toDouble negative)
  | none =>
    let name := String.ofList (body.map Char.toLower)
    if name = "inf" ∨ name = "infinity" then some (.infinity negative)
    else if name = "nan" then some ⟨negative, Format.quiet .double⟩
    else none

def exactDecimal (magnitude : Nat) : Decimal :=
  let m := Format.significand .double magnitude
  let e := Format.exponent .double magnitude
  if 0 ≤ e then ⟨m * Nat.pow 2 e.toNat, 0⟩ else ⟨m * Nat.pow 5 (-e).toNat, e⟩

/-- The two decimals with exponent `e` around `num / den`, the nearer first. -/
def neighbours (num den : Nat) (e : Int) : List Decimal :=
  let num := num * Nat.pow 10 (-e).toNat
  let den := den * Nat.pow 10 e.toNat
  let low : Decimal := ⟨num / den, e⟩
  let high : Decimal := ⟨num / den + 1, e⟩
  if 2 * (num % den) < den then [low, high] else [high, low]

/-- The exponent `e` with `10 ^ (e - 1) ≤ num / den < 10 ^ e`, for positive
arguments in the range of a double. -/
def decimalExponent (num den : Nat) : Int :=
  let guess := (floorLog2 num den * 30103).fdiv 100000 + 1
  if num * Nat.pow 10 (-guess).toNat < den * Nat.pow 10 guess.toNat then guess else guess + 1

/-- The shortest decimal that reads back as a finite positive magnitude, and
of those the nearest. -/
def shortest (magnitude : Nat) : Decimal :=
  let m := Format.significand .double magnitude
  let e := Format.exponent .double magnitude
  let num := m * Nat.pow 2 e.toNat
  let den := Nat.pow 2 (-e).toNat
  let top := decimalExponent num den
  let candidates := (List.range 17).flatMap fun n => neighbours num den (top - (n + 1 : Nat))
  (candidates.find? fun d => d.toDouble false == ⟨false, magnitude⟩).getD (exactDecimal magnitude)

/-- The sign of a NaN is not written. -/
def text (x : Double) : String :=
  if x.isNaN then "NaN"
  else
    let body :=
      if x.isInfinite then "inf"
      else if x.isZero then "0"
      else (shortest x.magnitude).text
    if x.negative then "-" ++ body else body

end Double

end FormulaGraph.Numeric
