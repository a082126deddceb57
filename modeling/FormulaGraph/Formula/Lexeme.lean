import FormulaGraph.Function.Basic
import FormulaGraph.Numeric.Decimal

/-!
Lexemes of formulas. Numerals and names take the longest run of their
characters, and the doubled operators are taken before the single ones.
-/

namespace FormulaGraph

open Numeric

inductive Operator where
  | add | sub | mul | div | floorDiv | mod | pow
deriving DecidableEq, Repr

namespace Operator

def all : List Operator := [add, sub, mul, div, floorDiv, mod, pow]

def symbol : Operator → String
  | add => "+"
  | sub => "-"
  | mul => "*"
  | div => "/"
  | floorDiv => "//"
  | mod => "%"
  | pow => "**"

def ofSymbol? (symbol : String) : Option Operator := all.find? (·.symbol == symbol)

def function : Operator → Function
  | add => .add
  | sub => .sub
  | mul => .mult
  | div => .div
  | floorDiv => .floordiv
  | mod => .mod
  | pow => .pow

def strength : Operator → Nat
  | add | sub => 10
  | mul | div | floorDiv | mod => 20
  | pow => 40

/-- What an operator demands of the operators in its right operand. Powers
group from the right, all others from the left. -/
def rightStrength : Operator → Nat
  | pow => strength pow
  | op => op.strength + 1

end Operator

inductive Lexeme where
  | numeral (text : String)
  | name (text : String)
  | op (op : Operator)
  | openParen | closeParen | openBracket | closeBracket | comma
deriving DecidableEq, Repr

namespace Lexeme

def isNumeralChar (c : Char) : Bool := c.isDigit || c == '.'

def isNameStart (c : Char) : Bool := c.isAlpha || c == '_'

def isNameChar (c : Char) : Bool := c.isAlphanum || c == '_'

/-- The sign at the start of a text, with its length. -/
def sign? : List Char → Option (Lexeme × Nat)
  | '*' :: '*' :: _ => some (.op .pow, 2)
  | '/' :: '/' :: _ => some (.op .floorDiv, 2)
  | '+' :: _ => some (.op .add, 1)
  | '-' :: _ => some (.op .sub, 1)
  | '*' :: _ => some (.op .mul, 1)
  | '/' :: _ => some (.op .div, 1)
  | '%' :: _ => some (.op .mod, 1)
  | '(' :: _ => some (.openParen, 1)
  | ')' :: _ => some (.closeParen, 1)
  | '[' :: _ => some (.openBracket, 1)
  | ']' :: _ => some (.closeBracket, 1)
  | ',' :: _ => some (.comma, 1)
  | _ => none

/-- The lexeme at the start of a text, with its length. A numeral must be the
text of a number. -/
def first? (text : List Char) : Option (Lexeme × Nat) :=
  match sign? text, text with
  | some found, _ => some found
  | none, [] => none
  | none, c :: _ =>
    if isNumeralChar c then
      let run := text.takeWhile isNumeralChar
      let numeral := String.ofList run
      if (Double.ofText? numeral).isSome then some (.numeral numeral, run.length) else none
    else if isNameStart c then
      let run := text.takeWhile isNameChar
      some (.name (String.ofList run), run.length)
    else none

/-- The lexemes of a text after `skip` characters; blanks and tabs divide them. -/
def scan : (skip : Nat) → List Char → Option (List Lexeme)
  | _, [] => some []
  | skip + 1, _ :: cs => scan skip cs
  | 0, c :: cs =>
    if c == ' ' || c == '\t' then scan 0 cs
    else match first? (c :: cs) with
      | none => none
      | some (lexeme, length) => (scan (length - 1) cs).map (lexeme :: ·)

def ofText? (text : String) : Option (List Lexeme) := scan 0 text.toList

end Lexeme

end FormulaGraph
