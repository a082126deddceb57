import FormulaGraph.Text.Character

/-!
Reading a settings text from its front. A reader gives what it read and the text
that is left, or fails; a choice that fails leaves the text where it was.

Between words and signs there may be white space, comments to the end of the
line, and comments between marks, which may hold one another. A name written
raw, behind `r#`, may also hold points and signs.
-/

namespace FormulaGraph.Settings

open Text

abbrev Read := StateT (List Char) Option

namespace Read

variable {α : Type}

def next? : Read (Option Char) := fun cs => some (cs.head?, cs)

def char (c : Char) : Read Unit := fun cs =>
  match cs with
  | d :: rest => if d = c then some ((), rest) else none
  | [] => none

def literal (text : String) : Read Unit := fun cs =>
  if text.toList.isPrefixOf cs then some ((), cs.drop text.length) else none

def run (p : Char → Bool) : Read (List Char) := fun cs =>
  some (cs.takeWhile p, cs.dropWhile p)

def optional (r : Read α) : Read (Option α) := fun cs =>
  match r cs with
  | some (a, rest) => some (some a, rest)
  | none => some (none, cs)

def finish : Read Unit := fun cs => if cs.isEmpty then some ((), cs) else none

def whole? (r : Read α) (text : String) : Option α :=
  ((do let a ← r; finish; return a : Read α) text.toList).map Prod.fst

end Read

/-! ### Gaps -/

def isGapChar (c : Char) : Bool :=
  [' ', '\t', '\n', '\r', '\x0b', '\x0c', '\u0085', '\u200e', '\u200f', '\u2028',
    '\u2029'].contains c

/-- Where a gap has come to. A block comment counts the ones around it. -/
inductive GapState where
  | open
  | line
  | block (depth : Nat)

/-- Pass over a gap. A lone slash and an unclosed block comment are refused. -/
def gapFrom : GapState → List Char → Option (List Char)
  | .open, [] => some []
  | .open, '/' :: '/' :: cs => gapFrom .line cs
  | .open, '/' :: '*' :: cs => gapFrom (.block 0) cs
  | .open, c :: cs =>
    if c = '/' then none else if isGapChar c then gapFrom .open cs else some (c :: cs)
  | .line, [] => some []
  | .line, c :: cs => gapFrom (if c = '\n' then .open else .line) cs
  | .block _, [] => none
  | .block depth, '/' :: '*' :: cs => gapFrom (.block (depth + 1)) cs
  | .block 0, '*' :: '/' :: cs => gapFrom .open cs
  | .block (depth + 1), '*' :: '/' :: cs => gapFrom (.block depth) cs
  | .block depth, _ :: cs => gapFrom (.block depth) cs

def gap : Read Unit := fun cs => (gapFrom .open cs).map fun rest => ((), rest)

/-! ### Words -/

def isRawNameChar (c : Char) : Bool :=
  c == '.' || c == '+' || c == '-' || isIdentifierChar c

def word (text : String) : Read Unit := do
  Read.literal text
  if (← Read.next?).any isIdentifierChar then failure

/-- Whether quoted text begins here, with the letters that may introduce it. -/
def opensQuote : List Char → Bool
  | 'b' :: '"' :: _ | 'b' :: '\'' :: _ | 'b' :: 'r' :: '#' :: _ | 'b' :: 'r' :: '"' :: _
  | 'r' :: '"' :: _ | 'r' :: '#' :: '"' :: _ | 'r' :: '#' :: '#' :: _ => true
  | _ => false

/-- A name, plain or raw, read as far as it goes. -/
def name : Read String := fun cs =>
  if opensQuote cs then none
  else match cs with
    | 'r' :: '#' :: rest =>
      let run := rest.takeWhile isRawNameChar
      if run.isEmpty then none else some (.ofList run, rest.dropWhile isRawNameChar)
    | c :: _ =>
      if isIdentifierStart c then
        some (.ofList (cs.takeWhile isIdentifierChar), cs.dropWhile isIdentifierChar)
      else none
    | [] => none

/-- A name that is not cut off before a point or a sign. -/
def wholeName : Read String := do
  let text ← name
  if (← Read.next?).any isRawNameChar then failure
  return text

/-! ### Items -/

/-- Items divided by commas, as far as a closing sign; a comma may end them.
There are at most `limit` of them. -/
def itemsUpTo {α : Type} (item : Read α) (closing : Char) : (limit : Nat) → Read (List α)
  | 0 => failure
  | limit + 1 => do
    gap
    if (← Read.next?) == some closing then return []
    let a ← item
    gap
    if (← Read.optional (Read.char ',')).isSome then
      return a :: (← itemsUpTo item closing limit)
    if (← Read.next?) != some closing then failure
    return [a]

/-- Items before a closing sign, at most as many as there are characters. -/
def itemsBefore {α : Type} (item : Read α) (closing : Char) : Read (List α) := fun cs =>
  itemsUpTo item closing (cs.length + 1) cs

def items {α : Type} (item : Read α) (closing : Char) : Read (List α) := do
  let found ← itemsBefore item closing
  Read.char closing
  return found

def entry {α β : Type} (key : Read α) (value : α → Read β) : Read β := do
  let a ← key
  gap
  Read.char ':'
  gap
  value a

end FormulaGraph.Settings
