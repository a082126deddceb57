import FormulaGraph.Kind
import FormulaGraph.Text.Occurrence

/-!
The characters of formulas: superscript digits, symbols of irrational numbers,
the names that can be typed for those symbols, and the characters a formula
may hold once it is written plainly.
-/

namespace FormulaGraph.Symbol

def superscripts : List (Char × Char) :=
  [('⁰', '0'), ('¹', '1'), ('²', '2'), ('³', '3'), ('⁴', '4'),
   ('⁵', '5'), ('⁶', '6'), ('⁷', '7'), ('⁸', '8'), ('⁹', '9')]

def superscriptDigit? (c : Char) : Option Char := superscripts.lookup c

def isSuperscript (c : Char) : Bool := (superscriptDigit? c).isSome

/-- Symbols of irrational numbers with the decimals that stand for them. -/
def irrationals : List (Char × String) :=
  [('π', "3.1415927"), ('𝑒', "2.7182818"), ('φ', "1.6180339")]

def isIrrational (c : Char) : Bool := irrationals.any (·.1 == c)

def irrationalDecimal? (text : List Char) : Option String :=
  match text with
  | [c] => irrationals.lookup c
  | _ => none

/-- Names that can be typed for the symbols. -/
def typedNames : List (String × Char) := [("Pi", 'π'), ("eNum", '𝑒'), ("Gold", 'φ')]

/-- Replace the typed names, one after the other. There is no result when none
of them occurs. -/
def expandNames? (text : String) : Option String :=
  let step (found : Option (List Char)) (entry : String × Char) : Option (List Char) :=
    let current := found.getD text.toList
    let name := entry.1.toList
    if Text.occurs name current then some (Text.replaceAll name [entry.2] current) else found
  (typedNames.foldl step none).map String.ofList

def separators : List Char := ['/', '*', '-', '+', '%', ',', '(', ')']

def brackets : List Char := ['[', ']']

/-- Whether a character divides a formula into elements. -/
def isSeparator (dialect : Dialect) (c : Char) : Bool :=
  separators.contains c || (dialect.hasVectors && brackets.contains c)

/-- Whether a character may stand in a plain formula. -/
def isAllowed (dialect : Dialect) (c : Char) : Bool :=
  c.isAlphanum || c == '.' || isSeparator dialect c

end FormulaGraph.Symbol
