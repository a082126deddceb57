import FormulaGraph.Graph.Node

/-!
Node trees and the edits on their nodes. Nodes, links and boundary sockets are
listed in the order in which they were made. The boundary of a tree shows
inside it as two group nodes that stand first and are never removed.
-/

namespace FormulaGraph

open Numeric

structure LinkId where
  index : Nat
deriving DecidableEq, Repr

structure Link where
  id : LinkId
  source : SocketRef
  target : SocketRef
deriving DecidableEq

namespace Link

def touchesNode (l : Link) (id : NodeId) : Bool := l.source.node == id || l.target.node == id

def touchesSocket (l : Link) (id : SocketId) : Bool :=
  l.source.socket == id || l.target.socket == id

end Link

/-- A node tree. A boundary socket is on the side where it shows from outside;
the group node that shows it inside has the same socket on the other side. -/
structure Tree where
  editor : Editor
  nodes : List Node
  links : List Link
  boundary : List Socket
  active : Option NodeId
  /-- The next identity that is not in use. -/
  supply : Nat
deriving DecidableEq

/-- An edit of a tree that may be refused; what it did before stays. -/
abbrev Edit (ε α : Type) := ExceptT ε (StateM Tree) α

/-- The node that shows the inputs of the tree. -/
def NodeId.groupInput : NodeId := ⟨0⟩

/-- The node that shows the outputs of the tree. -/
def NodeId.groupOutput : NodeId := ⟨1⟩

def NodeId.isGroup (id : NodeId) : Bool := id == groupInput || id == groupOutput

structure NodeSetup where
  name : Option String := none
  position : Point := .origin
  properties : List (String × String) := []

namespace Tree

/-- A tree with nothing but its group nodes. -/
def empty (editor : Editor) : Tree where
  editor := editor
  nodes :=
    [{ (NodeType.groupInput.instantiate 0).rename "Group Input" with position := ⟨-200, 0⟩ },
     { (NodeType.groupOutput.instantiate 1).rename "Group Output" with position := ⟨200, 0⟩ }]
  links := []
  boundary := []
  active := none
  supply := 2

def node? (t : Tree) (id : NodeId) : Option Node := t.nodes.find? (·.id == id)

def contains (t : Tree) (id : NodeId) : Bool := t.nodes.any (·.id == id)

def nodeNamed? (t : Tree) (name : String) : Option Node := t.nodes.find? (·.name == name)

def children (t : Tree) (frame : NodeId) : List Node := t.nodes.filter (·.parent == some frame)

def parent? (t : Tree) (id : NodeId) : Option NodeId := (t.node? id).bind (·.parent)

def modifyNode (t : Tree) (id : NodeId) (f : Node → Node) : Tree :=
  { t with nodes := t.nodes.map fun n => if n.id == id then f n else n }

def addNode (t : Tree) (type : NodeType) (setup : NodeSetup) : Tree × NodeId :=
  let node := type.instantiate t.supply
  let node := (setup.name.elim node node.rename).setProperties setup.properties
  ({ t with
      nodes := t.nodes ++ [{ node with position := setup.position }]
      supply := t.supply + type.idCount },
   node.id)

/-- The node that removing an identity takes out of the tree. -/
def removable? (t : Tree) (id : NodeId) : Option Node :=
  if id.isGroup then none else t.node? id

/-- Remove a node with its links; it is no longer a parent or active. Group
nodes stay. -/
def removeNode (t : Tree) (id : NodeId) : Tree :=
  if id.isGroup then t
  else
    { t with
      links := t.links.filter (!·.touchesNode id)
      nodes := (t.nodes.filter (·.id != id)).map fun n =>
        if n.parent == some id then { n with parent := none } else n
      active := t.active.filter (· != id) }

/-- Choose the active node; a node that is not in the tree clears the choice. -/
def setActive (t : Tree) (id : Option NodeId) : Tree :=
  { t with active := id.filter t.contains }

/-- The node beside which new nodes are placed. -/
def activeNode? (t : Tree) : Option Node := t.active.bind t.node?

end Tree

end FormulaGraph
