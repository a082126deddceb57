/-!
Sets of characters by the properties of Unicode 17: white space, the word
characters (the underscore, the characters with the `Alphabetic` property and the
numerals of any script), the characters of identifiers, and the characters that
quoted text spells by code point. Decimal digits are those of Unicode 16.
-/

namespace FormulaGraph.Text

/-- The ranges of a set by the lengths of its runs: so many code points outside
it, so many inside, and on in turn. -/
def rangesOfRuns (start : Nat) : List Nat → List (Nat × Nat)
  | gap :: length :: runs =>
    (start + gap, start + gap + length - 1) :: rangesOfRuns (start + gap + length) runs
  | _ => []

def inRanges (ranges : List (Nat × Nat)) (c : Char) : Bool :=
  ranges.any fun range => range.1 ≤ c.toNat && c.toNat ≤ range.2

def blankRanges : List (Nat × Nat) :=
  [(0x9, 0xd), (0x20, 0x20), (0x85, 0x85), (0xa0, 0xa0), (0x1680, 0x1680), (0x2000, 0x200a),
   (0x2028, 0x2029), (0x202f, 0x202f), (0x205f, 0x205f), (0x3000, 0x3000)]

def isBlank (c : Char) : Bool := inRanges blankRanges c

def allBlank (text : String) : Bool := text.toList.all isBlank

def digitRanges : List (Nat × Nat) := rangesOfRuns 0
  [48,10,1574,10,134,10,198,10,412,10,118,10,118,10,118,10,118,10,118,10,118,10,118,10,118,10,118,
   10,96,10,118,10,70,10,278,10,70,10,1862,10,38,10,300,10,128,10,166,10,6,10,182,10,86,10,134,10,6,
   10,35270,10,678,10,38,10,198,10,22,10,86,10,406,10,21270,10,1414,10,2182,10,6,10,796,10,128,10,
   60,10,144,10,278,10,342,10,118,10,374,10,102,10,6,20,76,10,422,10,102,10,662,10,86,10,246,10,70,
   10,422,10,16854,10,2342,10,86,10,134,10,534,10,24438,10,2772,50,2368,10,422,10,502,10,247,10,853,
   10,4758,10]

def isDecimalDigit (c : Char) : Bool := inRanges digitRanges c

def alphanumericRanges : List (Nat × Nat) := rangesOfRuns 0
  [48,10,7,26,6,26,47,1,7,2,1,1,3,2,1,3,1,23,1,31,1,458,4,12,14,5,7,1,1,1,86,1,29,18,1,2,2,4,1,1,6,
   1,1,3,1,1,1,20,1,83,1,139,8,166,1,38,2,1,6,41,39,14,1,1,1,2,1,2,1,1,8,27,4,4,29,11,5,56,1,17,4,
   102,1,8,4,8,4,16,2,1,16,48,13,101,14,43,9,2,4,1,5,24,2,19,19,25,7,11,5,24,1,7,7,1,8,42,10,12,3,7,
   6,76,1,16,1,3,4,15,2,10,1,19,1,8,2,2,2,22,1,7,1,1,3,4,3,8,2,2,2,2,1,1,8,1,4,2,1,5,2,12,2,6,2,1,4,
   3,1,6,4,2,2,22,1,7,1,2,1,2,1,2,4,5,4,2,2,2,4,1,7,4,1,1,7,16,11,3,1,9,1,3,1,22,1,7,1,2,1,5,3,9,1,
   3,1,2,3,1,15,4,2,10,9,4,4,3,1,8,2,2,2,22,1,7,1,2,1,5,3,8,2,2,2,2,9,2,4,2,1,5,2,10,1,7,10,2,1,6,3,
   3,1,4,3,2,1,1,1,2,3,2,3,3,3,12,4,5,3,3,1,3,3,1,6,1,14,13,13,13,1,3,1,23,1,16,3,8,1,3,1,3,8,2,1,3,
   1,2,2,4,2,10,8,7,1,4,1,8,1,3,1,23,1,10,1,5,3,8,1,3,1,3,8,2,5,3,1,4,2,10,1,3,12,13,1,3,1,41,2,8,1,
   3,1,3,1,1,5,16,2,19,1,6,1,3,1,18,3,24,1,9,1,1,2,7,8,6,1,1,1,8,6,10,2,2,13,58,5,7,6,1,2,10,39,2,1,
   1,1,5,1,24,1,1,1,19,1,3,2,5,1,1,6,1,2,10,2,4,32,1,31,20,12,8,1,36,4,19,4,16,1,36,67,55,1,1,2,15,
   6,78,2,38,1,1,5,1,2,43,1,333,1,4,2,7,1,1,1,4,2,41,1,4,2,33,1,4,2,7,1,1,1,4,2,15,1,57,1,4,2,67,14,
   20,3,16,16,86,2,6,3,620,2,17,1,26,5,75,3,11,7,20,11,21,12,20,12,13,1,3,1,2,12,52,2,19,14,1,4,1,3,
   10,6,10,22,10,6,89,7,43,5,70,10,31,1,12,4,9,13,40,2,5,11,44,4,26,6,11,37,28,4,63,2,20,11,10,6,10,
   13,1,23,2,11,3,49,52,1,15,1,8,3,10,38,42,2,58,1,11,14,55,9,10,3,49,2,11,5,43,2,3,41,4,1,6,1,2,3,
   1,5,192,19,34,11,278,2,6,2,38,2,6,2,8,1,1,1,1,1,1,1,31,2,53,1,7,1,1,3,3,1,7,3,4,2,6,4,13,5,3,1,7,
   115,2,2,6,5,11,6,13,101,1,4,1,2,10,1,1,3,5,6,1,1,1,1,1,1,4,1,11,2,4,5,5,4,1,1,58,726,60,26,74,
   630,30,1132,229,6,4,3,2,9,1,2,38,1,1,5,1,2,56,7,1,16,23,9,7,1,7,1,7,1,7,1,7,1,7,1,7,1,7,1,32,47,
   1,469,3,25,9,7,5,2,5,4,86,6,3,1,90,1,4,5,43,1,94,3,4,10,32,48,16,32,10,30,8,1,15,32,10,39,15,320,
   6592,64,22157,67,46,2,269,3,28,20,47,5,8,3,113,39,9,2,103,2,82,20,21,1,33,8,6,10,52,12,68,1,1,10,
   10,24,6,3,1,1,46,5,35,13,29,3,51,1,12,15,11,6,31,1,55,9,14,2,10,6,23,3,69,1,1,1,1,24,3,2,16,2,4,
   11,6,2,6,2,6,9,7,1,7,1,43,1,14,6,123,5,10,6,11172,12,23,4,49,8452,366,2,106,38,7,12,5,5,12,1,13,
   1,5,1,1,1,2,1,2,1,108,33,363,18,64,2,54,40,12,116,5,1,135,19,10,7,26,6,26,11,89,3,6,2,6,2,6,2,3,
   35,12,1,26,1,19,1,2,1,15,2,14,34,123,12,45,12,57,17,2,244,29,3,49,16,27,4,36,9,30,5,43,5,30,2,36,
   4,8,1,5,42,158,2,10,6,36,4,36,4,40,8,52,12,11,1,15,1,7,1,2,1,11,1,15,1,7,1,2,3,52,12,311,9,22,10,
   8,24,6,1,42,1,9,69,6,2,1,1,44,1,2,3,1,2,23,2,31,2,38,8,9,48,19,1,2,5,33,4,26,6,26,38,56,4,20,2,
   50,1,2,5,8,1,3,1,29,10,9,23,31,1,32,32,8,1,28,6,5,16,54,10,22,2,27,5,26,23,7,80,73,55,51,13,51,7,
   46,8,10,6,38,3,1,5,23,218,31,1,42,1,2,3,2,16,6,50,3,3,40,8,22,11,4,27,18,46,28,20,23,9,70,12,30,
   1,5,10,57,9,1,13,25,7,10,6,51,3,10,4,4,8,35,3,1,9,64,1,4,9,13,1,1,4,20,11,18,1,34,2,1,6,4,62,7,1,
   1,1,4,1,15,1,10,7,57,7,10,6,4,1,8,2,2,2,22,1,7,1,2,1,5,3,8,2,2,2,2,3,1,6,1,5,7,28,10,1,1,2,1,1,
   38,1,10,1,1,2,1,1,4,1,2,3,1,1,1,44,66,1,3,1,4,5,10,5,3,30,66,2,2,1,1,8,10,166,54,2,7,25,6,34,63,
   1,1,3,1,11,10,38,54,2,1,7,10,6,20,28,27,2,14,5,12,4,7,185,57,103,83,12,8,2,1,2,8,1,2,1,30,1,2,2,
   2,2,4,13,10,70,8,2,46,2,6,1,1,1,2,27,51,2,10,17,72,5,1,18,73,103,8,88,33,15,10,6,9,1,45,1,7,1,1,
   15,29,5,30,2,22,1,14,73,7,1,2,1,44,3,1,1,2,1,3,1,1,2,2,8,10,6,6,1,2,1,37,1,2,1,4,1,1,7,10,6,44,4,
   10,246,23,9,17,1,41,3,3,15,10,86,1,15,21,43,922,102,111,17,196,2636,97,15,1072,17,6,25,3995,5,
   583,6841,47,1,10,1734,569,7,31,1,10,6,79,1,10,6,30,18,48,16,4,12,10,1,7,1,21,5,19,432,45,3,10,
   198,87,9,25,2,25,44,75,4,57,7,17,64,2,1,1,12,7,9,7382,41,32,97,115,8701,4,1,7,1,2,1,291,15,1,29,
   3,2,1,14,4,8,396,2308,107,5,13,3,9,7,10,4,1,4177,10,1478,20,12,20,108,25,135,85,1,71,1,2,2,1,2,2,
   2,4,1,12,1,1,1,7,1,65,1,4,2,8,1,7,1,28,1,4,1,5,1,1,3,7,1,340,2,25,1,25,1,31,1,25,1,31,1,25,1,31,
   1,25,1,31,1,25,1,8,2,50,1792,31,6,6,213,7,1,17,2,7,1,2,1,5,5,62,33,1,112,45,10,7,2,10,4,1,321,30,
   18,44,4,10,470,28,4,10,214,30,2,11,197,31,1,22,8,2,224,7,1,4,1,2,1,15,1,197,2,9,48,68,3,1,3,1,4,
   10,791,59,1,3,1,4,76,45,1,15,194,4,1,27,1,2,1,1,2,1,1,10,1,4,1,1,1,1,6,1,4,1,1,1,1,1,1,3,1,2,1,1,
   2,1,1,1,1,1,1,1,1,1,1,2,1,1,2,4,1,7,1,4,1,4,1,1,1,10,1,17,5,3,1,5,1,17,580,13,35,26,6,26,6,26,
   2662,10,1030,42720,32,4382,2,5774,2,7473,15,622,2466,542,1506,4939,5,8490]

def isAlphanumeric (c : Char) : Bool := inRanges alphanumericRanges c

def isWordChar (c : Char) : Bool := isAlphanumeric c || c == '_'

/-- Alphanumeric characters that stand in no identifier: numerals other than
digits, letters in circles and some presentation forms. -/
def ornamentRanges : List (Nat × Nat) := rangesOfRuns 0
  [178,2,5,1,2,3,699,1,1657,6,376,6,120,3,133,7,217,7,17,9,433,10,1086,11,1139,10,2166,1,3,6,6,10,
   198,16,41,1,726,60,26,74,630,30,1385,1,305,1,866,4,138,10,30,8,1,15,32,10,39,15,30064,6,21544,6,
   406,2,116,1,1,1,1,1,1,1,1,1,1,1,1,1,1,1,648,45,65,4,17,2,341,27,36,4,1332,8,25,7,39,9,75,5,22,6,
   160,2,2,16,2,46,64,9,52,2,30,3,75,5,104,8,24,8,41,7,330,6,352,31,158,10,42,4,112,7,134,20,379,20,
   1349,2,430,9,871,19,851,21,19334,7,798,23,25641,20,12,20,108,25,5454,9,929,59,1,3,1,4,76,45,1,15,
   962,13,35,26,6,26,6,26]

/-- Marks and connectors that may go on an identifier and are not alphanumeric. -/
def connectorRanges : List (Nat × Nat) := rangesOfRuns 0
  [95,1,87,1,584,69,1,29,36,1,251,5,265,31,168,1,134,2,9,3,83,11,160,9,9,1,26,2,19,1,43,3,60,8,42,
   10,12,2,8,6,76,1,16,1,3,4,103,1,16,1,48,1,61,1,16,1,110,1,16,1,47,3,60,1,16,1,7,1,119,1,110,1,16,
   1,110,1,16,1,109,2,16,1,124,1,124,6,1,1,107,1,13,5,1,1,73,2,27,1,1,1,1,1,4,2,68,1,1,2,62,1,112,1,
   1,2,802,3,948,2,30,1,127,2,19,11,9,1,45,3,1,1,297,3,292,1,20,8,2,1,48,14,3,11,3,15,2,12,72,1,15,
   1,38,9,54,2,58,1,11,2,67,1,152,3,1,21,4,1,6,1,2,3,198,19,34,11,524,2,49,2,19,1,123,13,4,1,3,12,
   39,1,21,1,3008,3,141,1,682,6,105,2,96,1,30067,1,12,2,114,2,276,1,37,1,151,1,27,18,57,3,37,1,95,1,
   12,1,254,1,1,1,52,1,245,2,21010,16,16,16,3,2,24,3,239,1,37,1,663,1,226,1,1879,3,4,1,165,2,643,4,
   399,3,70,11,49,4,192,1,41,1,14,1,57,2,120,2,62,1,76,1,8,4,104,2,178,2,80,2,16,1,24,7,3,5,89,3,1,
   1,14,2,95,1,3,1,23,1,99,2,251,2,126,1,118,2,115,1,269,2,258,2,4,1,156,1,82,2,18,1,80,2,421,1,258,
   1,1,2,81,1,425,2,23,1,5349,1,6,15,11481,1,2496,5,59,7,1197,1,19640,1,4706,46,2,23,542,5,3,6,8,8,
   2,7,30,4,148,3,1979,55,4,50,8,1,14,1,22,5,1,15,1664,7,375,1,61,4,508,4,254,2,736,7,109,3,1,3,
   792501,240]

/-- Alphabetic characters that follow others: vowel signs and other marks. -/
def followerRanges : List (Nat × Nat) := rangesOfRuns 0
  [837,1,29,13,576,14,1,1,1,2,1,2,1,1,72,11,48,13,1,7,16,1,101,7,4,4,2,2,4,1,35,1,30,16,102,11,101,
   2,3,9,1,3,1,4,106,1,60,12,3,7,6,20,54,2,2,15,1,2,5,3,10,2,29,3,58,7,2,2,2,2,10,1,10,2,29,3,58,5,
   4,2,2,2,4,1,30,2,3,1,11,3,58,8,1,3,1,2,21,2,22,3,4,3,58,7,2,2,2,2,9,2,10,2,30,1,59,5,3,3,1,3,10,
   1,40,5,57,7,1,3,1,3,8,2,11,2,29,3,58,7,1,3,1,3,8,2,11,2,15,1,12,4,58,7,1,3,1,3,10,1,10,2,29,3,75,
   6,1,1,1,8,18,2,61,1,1,8,18,1,99,1,1,7,1,2,16,1,163,19,9,11,1,36,110,12,1,1,2,4,23,4,4,3,1,3,2,7,
   3,4,13,12,1,1,10,4,715,9,928,2,30,2,30,2,30,2,66,19,224,1,118,12,4,9,161,1,60,5,57,10,2,20,74,2,
   11,3,49,5,48,15,60,3,30,9,2,2,57,11,50,19,412,34,4075,32,30836,8,34,2,354,1,8,1,23,5,88,2,50,16,
   1,1,57,1,38,5,28,12,45,4,48,12,37,1,67,14,12,1,8,2,45,3,50,1,1,3,2,2,5,1,44,5,5,1,237,8,20275,1,
   1151,2,982,5,1670,3,1,2,5,4,788,4,65,1,321,2,77,3,259,3,53,14,45,2,11,3,45,9,9,1,61,3,36,12,18,2,
   57,3,48,13,14,2,92,9,2,1,6,1,2,1,157,10,23,4,58,7,2,2,2,2,10,1,10,2,84,9,1,1,2,1,1,4,1,2,103,13,
   1,3,106,18,237,7,2,7,29,2,82,15,1,1,106,11,103,14,257,13,247,6,1,2,2,2,3,1,1,1,142,7,2,6,4,1,28,
   10,42,5,1,4,18,11,46,14,200,8,199,8,1,7,83,22,1,14,122,6,3,1,1,2,1,3,1,1,3,1,66,5,1,2,1,4,73,10,
   265,4,9,2,1,1,48,7,3,3,16861,17,3616,1,1,55,7,4,93,2,19628,1,9057,7,1,17,2,7,1,2,1,5,100,1,1619,
   1,2,1,7,2,5,1,593,1]

def isIdentifierChar (c : Char) : Bool :=
  isAlphanumeric c && !inRanges ornamentRanges c || inRanges connectorRanges c

def isIdentifierStart (c : Char) : Bool :=
  c == '_' || c == '℘' || c == '℮' || (isAlphanumeric c && !inRanges ornamentRanges c &&
    !isDecimalDigit c && !inRanges followerRanges c)

/-- Controls, format characters, spaces other than the plain one, private and
unassigned code points, and marks that extend the character before them. -/
def unprintableRanges : List (Nat × Nat) := rangesOfRuns 0
  [0,32,95,34,12,1,594,112,8,2,6,4,7,1,1,1,20,1,224,7,166,1,38,2,50,2,3,46,1,1,1,2,1,2,1,9,27,4,6,
   17,10,11,1,1,46,21,16,1,101,8,1,6,2,2,1,4,32,2,1,1,30,29,89,11,1,14,43,9,7,3,24,4,1,9,1,3,1,7,15,
   1,25,5,1,1,11,5,32,16,42,57,55,1,1,1,4,8,4,1,3,7,10,2,29,1,2,1,8,2,2,2,22,1,7,1,1,3,4,3,1,1,2,6,
   2,2,2,1,1,13,2,1,3,4,24,5,1,1,6,4,2,2,22,1,7,1,2,1,2,1,2,4,3,24,4,1,1,7,10,2,3,1,1,12,1,1,9,1,3,
   1,22,1,7,1,2,1,5,3,4,8,1,1,2,3,1,15,2,4,12,7,1,8,2,1,8,2,2,2,22,1,7,1,2,1,5,3,1,2,1,6,2,2,2,15,2,
   1,3,4,18,11,1,1,6,3,3,1,4,3,2,1,1,1,2,3,2,3,3,3,12,5,1,1,2,3,3,1,3,3,1,21,21,6,3,1,8,1,3,1,23,1,
   16,3,1,3,4,19,3,1,2,2,2,4,10,7,10,1,11,1,3,1,23,1,10,1,5,3,2,2,1,1,2,23,3,1,2,4,10,1,3,14,11,1,3,
   1,41,2,1,1,2,5,3,1,3,1,2,4,3,1,10,4,26,2,2,1,18,3,24,1,9,1,1,2,7,9,2,6,7,7,10,2,3,12,48,1,2,11,8,
   8,13,37,2,1,1,1,5,1,24,1,1,1,10,1,2,9,1,2,5,1,1,9,10,2,4,32,24,2,27,1,1,1,1,1,14,1,36,18,1,5,1,2,
   5,49,8,1,6,1,13,37,45,4,1,6,1,2,2,2,25,2,4,3,16,4,13,1,2,2,6,1,15,1,40,1,1,5,1,2,377,1,4,2,7,1,1,
   1,4,2,41,1,4,2,33,1,4,2,7,1,1,1,4,2,15,1,57,1,4,2,67,5,29,3,26,6,86,2,6,2,640,1,28,3,89,7,18,13,
   19,3,2,9,18,14,13,1,3,15,52,2,1,7,8,1,2,11,9,3,10,6,10,6,11,5,10,6,89,7,5,2,34,1,1,5,70,10,31,4,
   4,2,3,4,2,1,6,7,1,3,42,2,5,11,44,4,26,6,11,3,57,2,2,3,56,1,1,9,1,1,2,8,6,13,10,6,10,6,14,86,48,
   10,4,3,8,1,29,9,12,2,32,4,2,6,56,1,1,2,3,1,1,13,48,8,2,5,15,3,62,5,43,2,11,11,1,13,1,7,4,1,6,1,3,
   2,1,5,192,64,278,2,6,2,38,2,6,2,8,1,1,1,1,1,1,1,31,2,53,1,15,1,14,2,6,1,19,2,3,1,9,17,24,8,47,17,
   2,2,27,1,13,3,34,62,140,4,666,22,11,21,1812,2,377,3,2,5,45,1,1,5,1,2,56,7,2,15,23,9,7,1,7,1,7,1,
   7,1,7,1,7,1,7,1,7,33,94,34,26,1,89,12,214,26,16,1,41,6,16,1,86,4,101,5,43,1,94,1,86,9,48,1,29293,
   3,55,9,348,20,47,4,1,10,32,2,80,2,6,8,221,20,17,1,3,1,4,1,25,2,5,4,10,6,56,8,68,10,12,24,13,1,38,
   8,25,11,1,12,30,6,48,1,2,4,2,2,2,1,13,1,11,4,7,1,25,1,41,6,2,2,2,11,3,1,8,1,1,2,10,2,32,1,51,1,1,
   3,2,2,5,2,1,1,1,24,17,2,8,11,6,2,6,2,6,9,7,1,7,1,60,4,117,1,2,1,4,3,10,6,11172,12,23,4,49,4,2048,
   6400,366,2,106,38,7,12,5,5,1,1,24,1,5,1,1,1,2,1,2,1,650,32,16,16,10,22,35,1,19,1,4,4,5,1,135,4,
   157,2,31,3,6,2,6,2,6,2,3,3,7,1,7,13,2,2,12,1,26,1,19,1,2,1,15,2,14,34,123,5,3,4,45,3,88,1,13,3,1,
   47,45,131,29,3,49,16,27,4,36,9,30,5,38,10,30,1,37,4,14,42,158,2,10,6,36,4,36,4,40,8,52,11,12,1,
   15,1,7,1,2,1,11,1,15,1,7,1,2,3,52,12,311,9,22,10,8,24,6,1,42,1,9,69,6,2,1,1,44,1,2,3,1,2,23,1,72,
   8,9,48,19,1,2,5,33,3,27,5,27,38,56,4,20,2,47,15,4,1,3,1,29,10,9,7,9,7,64,32,37,6,12,9,54,3,29,2,
   27,5,26,7,4,12,7,80,73,55,51,13,51,7,42,12,10,6,38,8,24,8,2,208,31,1,42,3,1,2,2,16,6,8,9,39,40,8,
   22,11,9,22,18,4,4,38,28,20,23,9,1,1,54,15,7,4,30,1,2,2,1,12,49,4,2,2,2,1,4,14,25,7,10,9,36,5,1,9,
   18,8,35,1,3,11,52,9,1,1,8,4,2,1,16,1,20,11,18,1,28,3,2,4,6,1,2,63,7,1,1,1,4,1,15,1,11,6,47,1,3,
   13,10,8,2,1,8,2,2,2,22,1,7,1,2,1,5,3,1,1,1,1,4,2,2,2,2,3,1,12,7,28,10,1,1,2,1,1,38,1,1,1,2,15,1,
   1,2,3,1,1,3,1,2,39,56,8,2,3,1,1,21,1,1,1,3,30,48,1,2,6,1,1,2,1,1,2,1,2,4,8,10,166,47,1,2,6,4,2,1,
   2,27,36,51,8,2,1,1,2,4,11,10,6,13,19,43,1,1,1,2,8,2,6,10,6,20,28,27,3,1,1,2,4,1,9,23,185,47,9,1,
   2,1,100,83,12,8,2,1,2,8,1,2,1,24,1,5,1,2,6,4,1,3,9,10,70,8,2,42,8,4,1,4,27,1,10,40,6,2,4,8,9,1,6,
   2,3,46,13,1,2,9,13,73,7,10,87,1,3,1,1,1,88,34,14,10,6,9,1,38,14,1,1,6,10,29,3,32,25,1,7,1,2,1,75,
   7,1,2,1,38,21,1,9,10,6,6,1,2,1,37,4,2,1,1,1,1,7,10,6,44,4,10,246,19,2,4,9,15,1,36,8,2,3,23,86,1,
   15,50,13,923,102,111,1,5,11,196,2636,99,13,1072,17,6,25,3995,5,583,6841,30,12,3,3,10,1734,569,7,
   31,1,10,4,81,1,10,6,30,7,1,10,48,7,15,10,10,1,7,1,21,5,19,432,58,198,91,5,25,2,25,44,75,5,56,11,
   13,64,4,14,5,9,7382,41,32,97,115,8701,4,1,7,1,2,1,291,15,1,29,3,2,1,14,4,8,396,2308,107,5,13,3,9,
   7,10,2,1,2,1,3936,253,3,436,6,23,15,17,95,116,60,246,10,39,2,60,5,3,22,2,7,30,4,61,21,66,3,1,122,
   20,12,20,12,87,9,25,135,85,1,71,1,2,2,1,2,2,2,4,1,12,1,1,1,7,1,65,1,4,2,8,1,7,1,28,1,4,1,5,1,1,3,
   7,1,340,2,292,2,562,55,4,50,8,1,14,1,7,1140,31,6,6,261,62,146,45,10,7,2,10,4,2,320,30,18,44,4,10,
   5,1,464,28,4,10,214,30,2,11,4,1,192,31,1,3,1,2,1,7,2,5,9,2,224,7,1,4,1,2,1,15,1,197,2,9,48,68,7,
   1,4,10,4,2,785,68,76,61,194,4,1,27,1,2,1,1,2,1,1,10,1,4,1,1,1,1,6,1,4,1,1,1,1,1,1,3,1,2,1,1,2,1,
   1,1,1,1,1,1,1,1,1,2,1,1,2,4,1,7,1,4,1,4,1,1,1,10,1,17,5,3,1,5,1,17,52,2,270,44,4,100,12,15,2,15,
   1,15,1,37,10,174,56,29,13,44,4,9,7,2,14,6,154,985,3,17,3,13,3,218,6,12,4,1,15,12,4,56,8,10,6,40,
   8,30,2,12,4,2,14,9,39,344,8,14,2,13,3,11,3,57,1,1,4,16,2,12,4,10,7,147,1,103,1029,42720,32,4382,
   2,5774,2,7473,15,622,2466,542,1506,4939,5,8490,904070]

def isUnprintable (c : Char) : Bool := inRanges unprintableRanges c

end FormulaGraph.Text
