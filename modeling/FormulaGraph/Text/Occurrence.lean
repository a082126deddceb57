import FormulaGraph.Text.Character

/-!
Occurrences of a token in a text, found from the left, and their replacement.
Places in a text are told in bytes, of which a character takes one to four. An
occurrence stands alone when no neighbour joins it to make a longer word or
numeral.
-/

namespace FormulaGraph.Text

def byteSize : List Char → Nat
  | [] => 0
  | c :: cs => c.utf8Size + byteSize cs

/-- The parts of a text before and behind a place. There are none if the place is
inside a character or beyond the end. -/
def cut? : (place : Nat) → List Char → Option (List Char × List Char)
  | 0, text => some ([], text)
  | _ + 1, [] => none
  | place + 1, c :: cs =>
    if c.utf8Size ≤ place + 1 then
      (cut? (place + 1 - c.utf8Size) cs).map fun parts => (c :: parts.1, parts.2)
    else none

def find? (token : List Char) : List Char → Option Nat
  | [] => if token.isEmpty then some 0 else none
  | c :: cs =>
    if token.isPrefixOf (c :: cs) then some 0 else (find? token cs).map (c.utf8Size + ·)

/-- Whether a neighbour continues the word or numeral that ends at an edge. -/
def joins (edge neighbour : Char) : Bool :=
  isWordChar edge && (isWordChar neighbour || (edge.isDigit && neighbour == '.'))

/-- Whether neither neighbour joins a token. -/
def isClear (token : List Char) (before after : Option Char) : Bool :=
  !(token.head?.any fun edge => before.any (joins edge)) &&
    !(token.getLast?.any fun edge => after.any (joins edge))

theorem byteSize_pos (first : Char) (more : List Char) : 0 < byteSize (first :: more) := by
  have := first.utf8Size_pos
  rw [byteSize]
  omega

theorem le_of_cut? {place : Nat} {text : List Char} (h : (cut? place text).isSome) :
    place ≤ byteSize text := by
  fun_induction cut? place text with
  | case1 => exact Nat.zero_le _
  | case2 => cases h
  | case3 place c cs hfits ih =>
    have := ih (by simpa using h)
    rw [byteSize]
    omega
  | case4 => cases h

/-- The places at which a token stands alone, from a place on. Behind one the
search goes on; where a neighbour joins the token, it goes on at the second
character of the token. There is no result if the text would be cut inside
a character. -/
def placesFrom? (first : Char) (more text : List Char) (start : Nat) : Option (List Nat) :=
  match _ : cut? start text with
  | none => none
  | some (_, rest) =>
    match find? (first :: more) rest with
    | none => some []
    | some found =>
      match cut? (start + found) text, cut? (start + found + byteSize (first :: more)) text with
      | some (left, _), some (_, right) =>
        if isClear (first :: more) left.getLast? right.head? then
          (placesFrom? first more text (start + found + byteSize (first :: more))).map
            ((start + found) :: ·)
        else placesFrom? first more text (start + found + first.utf8Size)
      | _, _ => none
termination_by byteSize text + 1 - start
decreasing_by
  · have := le_of_cut? (Option.isSome_of_eq_some ‹cut? start text = some _›)
    have := byteSize_pos first more
    omega
  · have := le_of_cut? (Option.isSome_of_eq_some ‹cut? start text = some _›)
    have := first.utf8Size_pos
    omega

/-- The places at which a token stands alone. The empty token does so nowhere. -/
def placesAlone? (token text : List Char) : Option (List Nat) :=
  match token with
  | [] => some []
  | first :: more => placesFrom? first more text 0

/-- A text from a place on, with what stands at further places replaced. -/
def splice? (width : Nat) (replacement text : List Char) :
    (start : Nat) → (places : List Nat) → Option (List Char)
  | start, [] => (cut? start text).map (·.2)
  | start, place :: places => do
    let (upto, _) ← cut? place text
    let (_, piece) ← cut? start upto
    return piece ++ (replacement ++ (← splice? width replacement text (place + width) places))

def replaceAlone? (token replacement text : List Char) : Option (List Char) := do
  splice? (byteSize token) replacement text 0 (← placesAlone? token text)

def occursAlone (token text : List Char) : Bool := !((placesAlone? token text).getD []).isEmpty

def replaceAlone (token replacement text : List Char) : List Char :=
  (replaceAlone? token replacement text).getD text

def occurs (token text : List Char) : Bool := (find? token text).isSome

/-- Whether the text starts with the token. The empty token is never replaced. -/
def startsWith (token text : List Char) : Bool := !token.isEmpty && token.isPrefixOf text

/-- Replace every occurrence of a token from the left. `skip` characters are
passed over first; a hit passes over the rest of its own characters. -/
def replaceFrom (token replacement : List Char) : (skip : Nat) → List Char → List Char
  | _, [] => []
  | skip + 1, _ :: cs => replaceFrom token replacement skip cs
  | 0, c :: cs =>
    if startsWith token (c :: cs) then
      replacement ++ replaceFrom token replacement (token.length - 1) cs
    else c :: replaceFrom token replacement 0 cs

def replaceAll (token replacement text : List Char) : List Char :=
  replaceFrom token replacement 0 text

end FormulaGraph.Text
