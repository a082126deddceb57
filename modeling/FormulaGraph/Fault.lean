import FormulaGraph.Function.Signature
import FormulaGraph.Graph.Boundary

/-!
Why a formula cannot be compiled. A fault belongs to one of eight classes, and
its message is written here alone.
-/

namespace FormulaGraph

inductive FaultClass where
  | syntactic | type | arity | name | index | unavailable | cycle | graph
deriving DecidableEq, Repr

/-- Operations that need a vector. -/
inductive VectorUse where
  | access | assignment | slice
deriving DecidableEq, Repr

def VectorUse.name : VectorUse → String
  | access => "Component access"
  | assignment => "Component assignment"
  | slice => "Slice assignment"

inductive Fault where
  -- reading the text
  | unreadable (text : String)
  | badNumeral (text : String)
  | forbiddenSymbol (c : Char)
  | forbiddenVariable (name : String)
  | illegalComposite (text : String)
  | unknownComposite (text : String)
  | strayTuple
  -- names and argument counts
  | takenName (name : String)
  | unknownFunction (name : String)
  | unknownVariable (name : String)
  | arguments (name : String) (fault : ArityFault)
  | vectorLength
  | sliceLength
  -- kinds of operands
  | unreadableOutput (name : String)
  | outputAsValue (name : String)
  | notAnOutput (kind : Kind)
  | inputKind (name : String) (kind : Kind)
  | outputKind (name : String)
  | unsupportedKinds (f : Function) (kinds : List Kind)
  | vectorArgument (f : Function) (param : String)
  | noConstruction (f : Function)
  | notAVector (use : VectorUse) (kind : Kind)
  | notAComponent (kind : Kind)
  | literalIntoSocket (kind : Kind) (type : SocketType)
  | literalOnBoundary (kind : Kind) (type : SocketType)
  | componentIndex (index : Int)
  -- what the editor lacks
  | unavailableNode (type : NodeType) (editor : Editor)
  | unavailableFunction (f : Function) (editor : Editor)
  -- what the tree refuses
  | missingInput (slot : Nat)
  | missingOutput (slot : Nat)
  | link (fault : LinkFault)
  | boundary (fault : BoundaryFault)
deriving DecidableEq

namespace Fault

def faultClass : Fault → FaultClass
  | unreadable _ | badNumeral _ | forbiddenSymbol _ | forbiddenVariable _
  | illegalComposite _ | unknownComposite _ | strayTuple => .syntactic
  | takenName _ | unknownFunction _ | unknownVariable _ => .name
  | arguments _ _ | vectorLength | sliceLength => .arity
  | unreadableOutput _ | outputAsValue _ | notAnOutput _ | inputKind _ _ | outputKind _
  | unsupportedKinds _ _ | vectorArgument _ _ | noConstruction _ | notAVector _ _ | notAComponent _
  | literalIntoSocket _ _ | literalOnBoundary _ _ => .type
  | componentIndex _ => .index
  | unavailableNode _ _ | unavailableFunction _ _ => .unavailable
  | missingInput _ | missingOutput _ => .graph
  | link .cycle | link .selfLoop => .cycle
  | link _ => .graph
  | boundary (.unavailable _ _) => .unavailable
  | boundary _ => .graph

/-- What is wrong, without the words that announce the class. -/
def detail : Fault → String
  | unreadable text => s!"Math Expression Not Recognized: '{text}'"
  | badNumeral text => s!"Unrecognized Float '{text}'"
  | forbiddenSymbol c => s!"Unauthorized Symbol '{c}'"
  | forbiddenVariable name => s!"Unauthorized Variable '{name}'"
  | illegalComposite text => s!"Illegal Composite '{text}'"
  | unknownComposite text => s!"Unrecognized Composite '{text}'"
  | strayTuple => "Wrong use of '( , )' Syntax"
  | takenName name => s!"Variable '{name}' is Taken"
  | unknownFunction name => s!"Function '{name}' not recognized."
  | unknownVariable name => s!"Variable '{name}' not recognized."
  | arguments name fault => fault.message name
  | vectorLength => "Vector must have exactly 3 elements"
  | sliceLength => "Slice assignment requires exactly 3 values."
  | unreadableOutput name => s!"Output '{name}' cannot be read"
  | outputAsValue name => s!"Output '{name}' cannot be read."
  | notAnOutput kind => s!"Only outputs can be assigned to, got a {kind.name}."
  | inputKind name kind => s!"Input '{name}' cannot be of kind {kind.name}."
  | outputKind name => s!"Output '{name}' needs a value kind."
  | unsupportedKinds f kinds =>
    let list := " and ".intercalate (kinds.map (·.name))
    s!"Function {f.name}() does not support {list}. Accepted kinds: Scalar, Boolean, Vector."
  | vectorArgument f param =>
    s!"Function {f.name}() parameter '{param}' does not support Vector. " ++
      "Accepted kinds: Scalar, Boolean."
  | noConstruction f => s!"Function {f.name}() has no node construction"
  | notAVector use kind => s!"{use.name} requires a Vector, got a {kind.name}."
  | notAComponent kind =>
    s!"Vector components accept Scalar or Boolean values, got a {kind.name}."
  | literalIntoSocket kind type => s!"A {kind.name} literal cannot feed a {type.name} socket"
  | literalOnBoundary kind type =>
    s!"A {kind.name} literal cannot be stored on a {type.name} socket"
  | componentIndex index => s!"Vector component index {index} is out of range."
  | unavailableNode type editor =>
    s!"Node '{type.id}' is not available in the {editor.name} editor."
  | unavailableFunction f editor =>
    s!"Function {f.name}() is not available in the {editor.name} editor."
  | missingInput slot => s!"missing input slot {slot}"
  | missingOutput slot => s!"missing output slot {slot}"
  | link fault => fault.message
  | boundary fault => fault.message

def message (fault : Fault) : String :=
  match fault.faultClass with
  | .cycle => "Cyclic reference: " ++ fault.detail
  | .graph => "Node tree error: " ++ fault.detail
  | _ => fault.detail

end Fault

end FormulaGraph
