import FormulaGraph.Settings.Read

/-!
Quoted text. Quotes, backslashes, line ends, tabs and NUL have short escapes;
other unprintable characters are written by code point. Reading also takes
bytes in hexadecimal, several of which may spell one character in UTF-8, and
raw text, which holds no escapes and ends at a quote followed by as many hash
signs as there were before the first one.
-/

namespace FormulaGraph.Settings

/-! ### Writing -/

def hexText (n : Nat) : List Char := Nat.toDigits 16 n

def escaped (c : Char) : List Char :=
  match c with
  | '\x00' => ['\\', '0']
  | '\t' => ['\\', 't']
  | '\n' => ['\\', 'n']
  | '\r' => ['\\', 'r']
  | '\'' => ['\\', '\'']
  | '"' => ['\\', '"']
  | '\\' => ['\\', '\\']
  | c =>
    if Text.isUnprintable c then ['\\', 'u', '\x7b'] ++ hexText c.toNat ++ ['\x7d'] else [c]

def quoted (text : String) : String :=
  .ofList ('"' :: text.toList.flatMap escaped ++ ['"'])

/-! ### Reading -/

def hexValue? (c : Char) : Option Nat :=
  if '0' ≤ c ∧ c ≤ '9' then some (c.toNat - '0'.toNat)
  else if 'a' ≤ c ∧ c ≤ 'f' then some (c.toNat - 'a'.toNat + 10)
  else if 'A' ≤ c ∧ c ≤ 'F' then some (c.toNat - 'A'.toNat + 10)
  else none

def charOfCode? (code : Nat) : Option Char :=
  if code.isValidChar then some (.ofNat code) else none

/-- The low six bits of a byte that continues a character. -/
def continuation? (byte : Nat) : Option Nat :=
  if 0x80 ≤ byte ∧ byte < 0xc0 then some (byte - 0x80) else none

/-- The character that the bytes spell in UTF-8, if they spell exactly one. -/
def charOfBytes? : List Nat → Option Char
  | [a] => if a < 0x80 then charOfCode? a else none
  | [a, b] => do
    let code := (a - 0xc0) * 0x40 + (← continuation? b)
    if 0xc0 ≤ a ∧ a < 0xe0 ∧ 0x80 ≤ code then charOfCode? code else none
  | [a, b, c] => do
    let code := ((a - 0xe0) * 0x40 + (← continuation? b)) * 0x40 + (← continuation? c)
    if 0xe0 ≤ a ∧ a < 0xf0 ∧ 0x800 ≤ code then charOfCode? code else none
  | [a, b, c, d] => do
    let code := (((a - 0xf0) * 0x40 + (← continuation? b)) * 0x40 + (← continuation? c)) * 0x40 +
      (← continuation? d)
    if 0xf0 ≤ a ∧ a < 0xf8 ∧ 0x10000 ≤ code then charOfCode? code else none
  | _ => none

def byte? : List Char → Option Nat
  | high :: low :: _ => return 16 * (← hexValue? high) + (← hexValue? low)
  | _ => none

/-- The character spelled by the bytes so far and at most `more` others, and
how many characters of text those take. -/
def byteEscape? : (more : Nat) → (before : List Nat) → List Char → Option (Char × Nat)
  | 0, _, _ => none
  | more + 1, before, cs => do
    let spelled := before ++ [← byte? cs]
    match charOfBytes? spelled, cs.drop 2 with
    | some c, _ => some (c, 2)
    | none, '\\' :: 'x' :: rest =>
      let (c, length) ← byteEscape? more spelled rest
      some (c, length + 4)
    | none, _ => none

/-- The character with the code point in braces, and how many characters of
text that takes: one to six hexadecimal digits and the braces. -/
def codeEscape? (cs : List Char) : Option (Char × Nat) :=
  match cs with
  | '\x7b' :: rest => do
    let digits := rest.takeWhile (· != '\x7d')
    if digits.isEmpty || 6 < digits.length || rest.length ≤ digits.length then none
    else do
      let values ← digits.mapM hexValue?
      let c ← charOfCode? (values.foldl (16 * · + ·) 0)
      some (c, digits.length + 2)
  | _ => none

/-- The character of an escape, from what follows the backslash, and how many
characters of text it takes. -/
def escape? : List Char → Option (Char × Nat)
  | '0' :: _ => some ('\x00', 1)
  | 't' :: _ => some ('\t', 1)
  | 'n' :: _ => some ('\n', 1)
  | 'r' :: _ => some ('\r', 1)
  | '\'' :: _ => some ('\'', 1)
  | '"' :: _ => some ('"', 1)
  | '\\' :: _ => some ('\\', 1)
  | 'x' :: cs => (byteEscape? 4 [] cs).map fun (c, length) => (c, length + 1)
  | 'u' :: cs => (codeEscape? cs).map fun (c, length) => (c, length + 1)
  | _ => none

/-- Text up to the closing quote, after `skip` characters that an escape has
taken. -/
def unquote? : (skip : Nat) → List Char → Option (List Char × List Char)
  | _, [] => none
  | skip + 1, _ :: cs => unquote? skip cs
  | 0, '"' :: cs => some ([], cs)
  | 0, '\\' :: cs => do
    let (c, length) ← escape? cs
    let (text, rest) ← unquote? length cs
    some (c :: text, rest)
  | 0, c :: cs => do
    let (text, rest) ← unquote? 0 cs
    some (c :: text, rest)

/-- Text up to a quote with the given number of hash signs behind it. -/
def rawUntil? (hashes : Nat) : List Char → Option (List Char × List Char)
  | [] => none
  | c :: cs =>
    if c = '"' ∧ (List.replicate hashes '#').isPrefixOf cs then some ([], cs.drop hashes)
    else do
      let (text, rest) ← rawUntil? hashes cs
      some (c :: text, rest)

def rawText : Read (List Char) := do
  let hashes ← Read.run (· == '#')
  Read.char '"'
  rawUntil? hashes.length

def text : Read String := do
  if (← Read.optional (Read.char '"')).isSome then
    return .ofList (← unquote? 0)
  Read.char 'r'
  return .ofList (← rawText)

end FormulaGraph.Settings
