/-!
Tags: the names of nodes that a pass makes. A tag starts with one of four
marks, and a pass leaves alone every node whose name does not.
-/

namespace FormulaGraph.Tag

/-- The mark of operation nodes. -/
def functionMark : String := "F|"

/-- The mark of constants. -/
def constantMark : String := "C|"

/-- The mark of frames. -/
def frameMark : String := "G|"

/-- The mark of nodes that assemble a default. -/
def defaultMark : String := "D|"

/-- The first characters of the marks; a bar follows each. -/
def markLetters : List Char := ['F', 'C', 'G', 'D']

def isMarked : List Char → Bool
  | c :: '|' :: _ => markLetters.contains c
  | _ => false

def isTag (name : String) : Bool := isMarked name.toList

def dropMarks : List Char → List Char
  | c :: '|' :: rest => if markLetters.contains c then dropMarks rest else c :: '|' :: rest
  | cs => cs

/-- What a tag says about its node: the text after the marks and before the
operands. -/
def strip (name : String) : String :=
  String.ofList ((dropMarks name.toList).takeWhile (· != '('))

def operation (op : String) (markers : List String) : String :=
  functionMark ++ op ++ "(" ++ ",".intercalate markers ++ ")"

end FormulaGraph.Tag
