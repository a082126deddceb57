import FormulaGraph.Fault
import FormulaGraph.Formula.Lexeme

/-!
Formulas as they are written, with operators, calls, tuples and bracket lists, are
read from lexemes by operator strength. At most `levelLimit` levels may be open at
once, and the formula read may be at most as tall: the whole text, a signed
operand, a right operand, the content of parentheses and each item of a list open
a level. A level is a function of the lexemes that are left, built from the next
level down.
-/

namespace FormulaGraph

inductive Surface where
  | numeral (text : String)
  | name (text : String)
  | negate (operand : Surface)
  | plus (operand : Surface)
  | binary (op : Operator) (left right : Surface)
  | call (name : String) (args : List Surface)
  | tuple (items : List Surface)
  | list (items : List Surface)

namespace Surface

mutual

/-- The formula in fully bracketed form, operators first. -/
def text : Surface → String
  | numeral t => "#" ++ t
  | name t => t
  | negate x => "(neg " ++ x.text ++ ")"
  | plus x => "(plus " ++ x.text ++ ")"
  | binary op l r => "(" ++ op.symbol ++ " " ++ l.text ++ " " ++ r.text ++ ")"
  | call f args => "(call " ++ f ++ textAll args ++ ")"
  | tuple items => "(tuple" ++ textAll items ++ ")"
  | list items => "(list" ++ textAll items ++ ")"

def textAll : List Surface → String
  | [] => ""
  | x :: xs => " " ++ x.text ++ textAll xs

end

mutual

def height : Surface → Nat
  | numeral _ | name _ => 1
  | negate x | plus x => x.height + 1
  | binary _ l r => max l.height r.height + 1
  | call _ items | tuple items | list items => heightAll items + 1

def heightAll : List Surface → Nat
  | [] => 0
  | x :: xs => max x.height (heightAll xs)

end

end Surface

namespace Reader

def levelLimit : Nat := 256

/-- A formula read from the front of the lexemes, its height and the rest. -/
structure Parsed where
  tree : Surface
  height : Nat
  rest : List Lexeme

/-- Items read up to a closing sign, the height of the tallest and the rest. -/
structure ParsedItems where
  items : List Surface
  height : Nat
  rest : List Lexeme

/-- What reads an operand whose operators have at least the given strength. -/
abbrev Level := (strength : Nat) → List Lexeme → Option Parsed

/-- The height of something built on operands of the given height. -/
def atop? (height : Nat) : Option Nat :=
  if levelLimit ≤ height then none else some (height + 1)

/-- Items divided by commas, up to a closing sign; a comma may end them. There
are at most `limit` of them. -/
def items? (level : Level) (closing : Lexeme) : (limit : Nat) → List Lexeme → Option ParsedItems
  | 0, _ => none
  | limit + 1, lexemes =>
    if lexemes.head? = some closing then some ⟨[], 0, lexemes.tail⟩
    else do
      let item ← level 0 lexemes
      match item.rest with
      | .comma :: rest =>
        let more ← items? level closing limit rest
        some ⟨item.tree :: more.items, max item.height more.height, more.rest⟩
      | lexeme :: rest =>
        if lexeme = closing then some ⟨[item.tree], item.height, rest⟩ else none
      | [] => none

/-- As many items as there are lexemes, at most. -/
def itemsTo? (level : Level) (closing : Lexeme) (lexemes : List Lexeme) : Option ParsedItems :=
  items? level closing (lexemes.length + 1) lexemes

/-- A numeral, a name, a call, something in parentheses or a bracket list. -/
def atom? (level : Level) : List Lexeme → Option Parsed
  | .numeral text :: rest => some ⟨.numeral text, 1, rest⟩
  | .name name :: .openParen :: rest => do
    let args ← itemsTo? level .closeParen rest
    some ⟨.call name args.items, ← atop? args.height, args.rest⟩
  | .name name :: rest => some ⟨.name name, 1, rest⟩
  | .openParen :: .closeParen :: rest => some ⟨.tuple [], 1, rest⟩
  | .openParen :: rest => do
    let first ← level 0 rest
    match first.rest with
    | .comma :: rest =>
      let more ← itemsTo? level .closeParen rest
      some ⟨.tuple (first.tree :: more.items), ← atop? (max first.height more.height), more.rest⟩
    | .closeParen :: rest => some ⟨first.tree, first.height, rest⟩
    | _ => none
  | .openBracket :: rest => do
    let items ← itemsTo? level .closeBracket rest
    some ⟨.list items.items, ← atop? items.height, items.rest⟩
  | _ => none

/-- An atom, or a signed operand: a sign takes powers into its operand and
nothing looser. -/
def operand? (level : Level) : List Lexeme → Option Parsed
  | .op .sub :: rest => do
    let x ← level Operator.pow.strength rest
    some ⟨.negate x.tree, ← atop? x.height, x.rest⟩
  | .op .add :: rest => do
    let x ← level Operator.pow.strength rest
    some ⟨.plus x.tree, ← atop? x.height, x.rest⟩
  | lexemes => atom? level lexemes

/-- Continue a left operand with the operators of at least the given strength
that follow it, `limit` of them at most. -/
def operators? (level : Level) (strength : Nat) : (limit : Nat) → Parsed → Option Parsed
  | 0, left => some left
  | limit + 1, left =>
    match left.rest with
    | .op op :: rest =>
      if op.strength < strength then some left
      else do
        let right ← level op.rightStrength rest
        let height ← atop? (max left.height right.height)
        operators? level strength limit ⟨.binary op left.tree right.tree, height, right.rest⟩
    | _ => some left

/-- The level with `levels` more of them allowed below it. -/
def level : (levels : Nat) → Level
  | 0 => fun _ _ => none
  | levels + 1 => fun strength lexemes => do
    let left ← operand? (level levels) lexemes
    operators? (level levels) strength left.rest.length left

end Reader

def Surface.ofText? (text : String) : Option Surface := do
  let lexemes ← Lexeme.ofText? text
  let parsed ← Reader.level Reader.levelLimit 0 lexemes
  if parsed.rest.isEmpty then some parsed.tree else none

def Surface.ofText (text : String) : Except Fault Surface :=
  match ofText? text with
  | some surface => .ok surface
  | none => .error (.unreadable text)

end FormulaGraph
