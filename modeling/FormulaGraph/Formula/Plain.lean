import FormulaGraph.Fault
import FormulaGraph.Formula.Symbol

/-!
Plain formulas. Typed text is made plain in steps whose order matters: blanks
go, superscripts become powers, symbols of irrational numbers become decimals,
multiplication signs are inserted at parentheses, and every element between
separators is classified. In the algebraic reading letters and numerals side by
side are factors, otherwise they are refused.
-/

namespace FormulaGraph

/-- A set of texts, listed in increasing order of their characters. -/
abbrev Text.SortedSet := List String

namespace Text.SortedSet

def insert (s : SortedSet) (x : String) : SortedSet :=
  match s with
  | [] => [x]
  | y :: ys => if x < y then x :: y :: ys else if x = y then y :: ys else y :: insert ys x

def ofList (xs : List String) : SortedSet := xs.foldl insert []

end Text.SortedSet

open Text FormulaGraph.Symbol

/-- A formula written plainly, with its elements by class. Composites are the
elements that were split into factors, as typed. -/
structure Plain where
  text : String
  unknowns : SortedSet
  constants : SortedSet
  functions : SortedSet
  composites : SortedSet
deriving DecidableEq

structure Reading where
  algebraic : Bool
  dialect : Dialect
deriving DecidableEq

namespace Plain

def isLetter (c : Char) : Bool := c.isAlpha

/-- The length of a numeral at the start of a text: digits, or digits around a
point. -/
def numeralLength (isDigit : Char → Bool) (text : List Char) : Nat :=
  let whole := text.takeWhile isDigit
  match whole, text.drop whole.length with
  | _ :: _, '.' :: rest =>
    let fraction := rest.takeWhile isDigit
    if fraction.isEmpty then whole.length else whole.length + 1 + fraction.length
  | _, _ => whole.length

/-- Whether a superscript follows the first `n` characters, for positive `n`. -/
def isRaised (text : List Char) (n : Nat) : Bool :=
  n != 0 && (text.drop n).head?.any isSuperscript

/-- The length of the base of a power at the start of a text, zero if there is
none. Algebraically the base is one letter, symbol or numeral. -/
def baseLength (algebraic : Bool) (text : List Char) : Nat :=
  if algebraic then
    match text with
    | [] => 0
    | c :: _ =>
      if isLetter c || isIrrational c then if isRaised text 1 then 1 else 0
      else
        let whole := (text.takeWhile isDecimalDigit).length
        let numeral := numeralLength isDecimalDigit text
        if isRaised text whole then whole
        else if isRaised text numeral then numeral
        else 0
  else
    let run := (text.takeWhile fun c => c.isAlphanum || c == '.' || isIrrational c).length
    if isRaised text run then run else 0

/-- The length of a closing parenthesis that is raised to a power. -/
def closingLength (text : List Char) : Nat :=
  match text with
  | ')' :: _ => if isRaised text 1 then 1 else 0
  | _ => 0

/-- Spell out the powers of a text: each base that `base` finds with the
superscripts after it. `skip` characters are passed over first. -/
def spellPowers (base : List Char → Nat) (write : (base digits : List Char) → List Char) :
    (skip : Nat) → List Char → List Char
  | _, [] => []
  | skip + 1, _ :: cs => spellPowers base write skip cs
  | 0, c :: cs =>
    let n := base (c :: cs)
    if n = 0 then c :: spellPowers base write 0 cs
    else
      let raised := ((c :: cs).drop n).takeWhile isSuperscript
      write ((c :: cs).take n) (raised.filterMap superscriptDigit?) ++
        spellPowers base write (n + raised.length - 1) cs

def spellSuperscripts (algebraic : Bool) (text : List Char) : List Char :=
  let text := spellPowers (baseLength algebraic)
    (fun base digits => '(' :: base ++ ['*', '*'] ++ digits ++ [')']) 0 text
  spellPowers closingLength (fun base digits => base ++ ['*', '*'] ++ digits) 0 text

def replaceIrrationals (text : List Char) : List Char :=
  irrationals.foldl (fun text entry => replaceAlone [entry.1] entry.2.toList text) text

def runs (dialect : Dialect) (text : List Char) : List (List Char) :=
  (text.splitOnP (isSeparator dialect)).filter (!·.isEmpty)

def elements (dialect : Dialect) (text : List Char) : SortedSet :=
  .ofList ((runs dialect text).map String.ofList)

def isFunction (dialect : Dialect) (element : String) : Bool :=
  (Function.inDialect? element dialect).isSome

/-- A multiplication sign between a digit and an opening parenthesis. -/
def multiplyDigits : (before : Option Char) → List Char → List Char
  | _, [] => []
  | before, c :: cs =>
    if c == '(' && before.any isDecimalDigit then '*' :: c :: multiplyDigits (some c) cs
    else c :: multiplyDigits (some c) cs

/-- Multiplication signs between an element and a parenthesis on either side. -/
def multiplyElement (text : List Char) (element : String) : List Char :=
  let e := element.toList
  let text := replaceAlone (e ++ ['(']) (e ++ ['*', '(']) text
  replaceAlone (')' :: e) (')' :: '*' :: e) text

def insertProducts (r : Reading) (elements : SortedSet) (text : List Char) : List Char :=
  if r.algebraic then
    (elements.filter (!isFunction r.dialect ·)).foldl multiplyElement text
  else multiplyDigits none text

/-- The factors of a composite: numerals, letters and symbols. -/
def factors? : (skip : Nat) → List Char → Option (List (List Char))
  | _, [] => some []
  | skip + 1, _ :: cs => factors? skip cs
  | 0, c :: cs =>
    if c.isDigit then
      let n := numeralLength Char.isDigit (c :: cs)
      (factors? (n - 1) cs).map ((c :: cs).take n :: ·)
    else if isLetter c || isIrrational c then (factors? 0 cs).map ([c] :: ·)
    else none

/-- Enter a factor of a composite, and give the text to write for it. -/
def addFactor (p : Plain) (factor : List Char) : Plain × List Char :=
  match irrationalDecimal? factor with
  | some decimal => ({ p with constants := p.constants.insert decimal }, decimal.toList)
  | none =>
    let name := String.ofList factor
    if factor.head?.any Char.isDigit then
      ({ p with constants := p.constants.insert name }, factor)
    else ({ p with unknowns := p.unknowns.insert name }, factor)

def addFactors (p : Plain) : List (List Char) → Plain × List (List Char)
  | [] => (p, [])
  | f :: fs =>
    let (p, first) := p.addFactor f
    let (p, rest) := addFactors p fs
    (p, first :: rest)

/-- Split a composite into factors, wherever it stands alone in the text. -/
def splitComposite (p : Plain) (element : String) (factors : List (List Char)) : Plain :=
  let (p, written) := p.addFactors factors
  let text := replaceAlone element.toList (['*'].intercalate written) p.text.toList
  { p with text := String.ofList text, composites := p.composites.insert element }

/-- Whether an element is called somewhere in the text. -/
def isCalled (p : Plain) (element : String) : Bool :=
  occursAlone (element.toList ++ ['(']) p.text.toList

def isNumeral (text : List Char) : Bool :=
  !text.isEmpty && numeralLength Char.isDigit text == text.length

def enter (r : Reading) (p : Plain) (element : String) : Except Fault Plain :=
  let cs := element.toList
  if isFunction r.dialect element then
    if p.isCalled element then .ok { p with functions := p.functions.insert element }
    else .error (.takenName element)
  else if cs.all fun c => c.isDigit || c == '.' then
    if isNumeral cs then .ok { p with constants := p.constants.insert element }
    else .error (.badNumeral element)
  else if cs.all isLetter then
    if cs.length == 1 || r.algebraic then
      .ok { p with unknowns := p.unknowns.insert element }
    else if p.isCalled element then .error (.unknownFunction element)
    else .error (.forbiddenVariable element)
  else match cs.find? fun c => !(isAllowed r.dialect c || isIrrational c) with
    | some c => .error (.forbiddenSymbol c)
    | none =>
      if !r.algebraic then .error (.illegalComposite element)
      else match factors? 0 cs with
        | none => .error (.unknownComposite element)
        | some factors => .ok (p.splitComposite element factors)

/-- The text after the steps on characters, before its elements are classified. -/
def prepare (r : Reading) (raw : String) : List Char × SortedSet :=
  let text := raw.toList.filter fun c => c != ' ' && c != '\t'
  let text := replaceIrrationals (spellSuperscripts r.algebraic text)
  let elements := elements r.dialect text
  (insertProducts r elements text, elements)

/-- Make typed text plain. Elements are classified in sorted order and the
first that is refused decides the fault; what is left in the text last. -/
def ofRaw (r : Reading) (raw : String) : Except Fault Plain := do
  let (text, elements) := prepare r raw
  let plain ← elements.foldlM (enter r) ⟨String.ofList text, [], [], [], []⟩
  match plain.text.toList.find? (!isAllowed r.dialect ·) with
  | some c => throw (.forbiddenSymbol c)
  | none => return plain

end Plain

end FormulaGraph
