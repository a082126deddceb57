import FormulaGraph.Graph.NodeType
import FormulaGraph.Ordered

/-!
Nodes of a tree. Identities are numbers drawn from a supply, so a new node
takes a block of them: one for itself and one for each of its sockets.
-/

namespace FormulaGraph

open Numeric

structure NodeId where
  index : Nat
deriving DecidableEq, Repr

structure SocketId where
  index : Nat
deriving DecidableEq, Repr

structure Socket where
  id : SocketId
  name : String
  side : Side
  type : SocketType
  default : Option Value
  /-- Whether several links may meet here. -/
  multiConnect : Bool
deriving DecidableEq

/-- A new output may feed any number of links, a new input is fed by one. -/
def Side.multiConnect (side : Side) : Bool := side == .output

namespace Socket

def fits (s t : Socket) : Bool := s.side != t.side && s.type.fits t.type

end Socket

/-- A socket within the node that owns it: one end of a link. -/
structure SocketRef where
  node : NodeId
  socket : SocketId
deriving DecidableEq, Repr

structure Point where
  x : Single
  y : Single
deriving DecidableEq

namespace Point

def origin : Point := ⟨0, 0⟩

/-- The place that follows a node of the given width, a gap to its right and a
step down. -/
def next (p : Point) (width gap step : Single) : Point := ⟨p.x + width + gap, p.y + step⟩

end Point

structure Tint where
  red : UInt8
  green : UInt8
  blue : UInt8
deriving DecidableEq

structure Node where
  id : NodeId
  type : NodeType
  name : String
  label : String
  position : Point
  width : Single
  inputs : List Socket
  outputs : List Socket
  properties : Ordered String
  parent : Option NodeId
  color : Option Tint
deriving DecidableEq

/-- Sockets made from their descriptions, with consecutive identities. -/
def SocketSpec.instances (specs : List SocketSpec) (side : Side) (first : Nat) : List Socket :=
  specs.mapIdx fun i spec =>
    ⟨⟨first + i⟩, spec.name, side, spec.type, spec.default, side.multiConnect⟩

namespace NodeType

def idCount (type : NodeType) : Nat := 1 + type.inputs.length + type.outputs.length

/-- A new node, its identities starting at `first`. -/
def instantiate (type : NodeType) (first : Nat) : Node where
  id := ⟨first⟩
  type := type
  name := type.title
  label := ""
  position := .origin
  width := type.width
  inputs := SocketSpec.instances type.inputs .input (first + 1)
  outputs := SocketSpec.instances type.outputs .output (first + 1 + type.inputs.length)
  properties := .empty
  parent := none
  color := none

end NodeType

namespace Node

def rename (n : Node) (name : String) : Node := { n with name := name, label := name }

def setProperties (n : Node) (entries : List (String × String)) : Node :=
  { n with properties := n.properties.insertAll entries }

def property? (n : Node) (key : String) : Option String := n.properties.get? key

/-- A socket of the node, inputs first. -/
def socket? (n : Node) (id : SocketId) : Option Socket :=
  (n.inputs ++ n.outputs).find? (·.id == id)

def setInputDefault (n : Node) (slot : Nat) (value : Value) : Node :=
  { n with inputs := n.inputs.modify slot fun s => { s with default := some value } }

def setOutputDefault (n : Node) (slot : Nat) (value : Value) : Node :=
  { n with outputs := n.outputs.modify slot fun s => { s with default := some value } }

def nextPosition (n : Node) (gap step : Single) : Point := n.position.next n.width gap step

end Node

end FormulaGraph
