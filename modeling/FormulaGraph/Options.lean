import FormulaGraph.Kind
import FormulaGraph.Ordered
import FormulaGraph.Text.Character

/-!
Options of a formula.
-/

namespace FormulaGraph

structure Options where
  dialect : Dialect := .math
  /-- Whether letters and numerals side by side are multiplied. -/
  algebraic : Bool := false
  /-- Whether the typed names of symbols are replaced. -/
  expandNames : Bool := false
  /-- Whether numbers become nodes rather than defaults of inputs. -/
  constantNodes : Bool := true
  outputName : String := "Result"
  /-- The kinds of variables that are not scalars. -/
  variableKinds : Ordered Kind := .empty
deriving DecidableEq

namespace Options

def kindOf (o : Options) (name : String) : Kind := (o.variableKinds.get? name).getD .scalar

def declare (o : Options) (name : String) (kind : Kind) : Options :=
  { o with variableKinds := o.variableKinds.insert name kind }

/-- Whether two maps hold the same entries, in whatever order. -/
def sameKinds (a b : Ordered Kind) : Bool :=
  a.entries.length == b.entries.length &&
    a.entries.all fun entry => b.get? entry.1 == some entry.2

/-- Whether two options mean the same; the order of the variables is not part
of that. -/
def agrees (a b : Options) : Bool :=
  { a with variableKinds := .empty } == { b with variableKinds := .empty } &&
    sameKinds a.variableKinds b.variableKinds

end Options

inductive OptionsFault where
  | unreadable
  | unwritable
  | blankOutput
  | outputVariable (name : String)
deriving DecidableEq, Repr

def OptionsFault.message : OptionsFault → String
  | unreadable => "Invalid options file"
  | unwritable => "Serialization error"
  | blankOutput => "Invalid options: output_name must not be empty"
  | outputVariable name => s!"Invalid options: variable '{name}' cannot be of kind Output"

/-- The first thing wrong with options: the name of the output, then the first
variable that is declared an output. -/
def Options.fault? (o : Options) : Option OptionsFault :=
  if Text.allBlank o.outputName then some .blankOutput
  else (o.variableKinds.entries.find? (·.2 == .output)).map fun entry => .outputVariable entry.1

end FormulaGraph
