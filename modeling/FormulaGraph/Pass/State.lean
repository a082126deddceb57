import FormulaGraph.Fault
import FormulaGraph.Pass.Tag

/-!
Operands of a pass, which are handles on sockets of the tree and literals, and the
state of a pass. Operations are named by tags made of the numbers of their
operands, so that a later pass over the same formula finds its nodes again.
-/

namespace FormulaGraph

open Numeric

/-- A socket of the tree as an operand. Handles of one kind are numbered
within a pass; a handle on the boundary carries the name of its socket. -/
structure Handle where
  kind : Kind
  number : Nat
  socket : SocketRef
  boundary : Option String
deriving DecidableEq

namespace Handle

def marker (h : Handle) : String := h.kind.letter.toString ++ toString h.number

def node (h : Handle) : NodeId := h.socket.node

def boundaryName (h : Handle) : String := h.boundary.getD ""

end Handle

inductive Operand where
  | handle (h : Handle)
  | literal (l : Literal)
deriving DecidableEq

namespace Operand

def kind : Operand → Kind
  | handle h => h.kind
  | literal l => l.kind

def isVector (o : Operand) : Bool := o.kind == .vector

def scalar (x : Single) : Operand := literal (.scalar x)

end Operand

structure HandleCounts where
  scalar : Nat := 0
  vector : Nat := 0
  boolean : Nat := 0
  rotation : Nat := 0
  matrix : Nat := 0
  output : Nat := 0
deriving DecidableEq

namespace HandleCounts

def get (c : HandleCounts) : Kind → Nat
  | .scalar => c.scalar
  | .vector => c.vector
  | .boolean => c.boolean
  | .rotation => c.rotation
  | .matrix => c.matrix
  | .output => c.output

def bump (c : HandleCounts) : Kind → HandleCounts
  | .scalar => { c with scalar := c.scalar + 1 }
  | .vector => { c with vector := c.vector + 1 }
  | .boolean => { c with boolean := c.boolean + 1 }
  | .rotation => { c with rotation := c.rotation + 1 }
  | .matrix => { c with matrix := c.matrix + 1 }
  | .output => { c with output := c.output + 1 }

end HandleCounts

structure Pass where
  tree : Tree
  counts : HandleCounts
  /-- Literals that have been given a place in a tag. -/
  literals : Nat
  /-- The node of each tag, found in the tree or made by the pass. -/
  index : List (String × NodeId)
  /-- The handles each tag has given, latest first. -/
  results : List (String × List Handle)
  used : List NodeId
  constants : Nat
  created : Nat
  /-- The frames the pass has asked for, each with its members, latest first. No
  step reads this record; it is kept to say what becomes of frames. -/
  groups : List (NodeId × List NodeId)

/-- A step of a pass that may fail; what it did before stays. -/
abbrev PassM := ExceptT Fault (StateM Pass)

namespace Pass

/-- The last node of a name is the one its tag finds. -/
def tagIndex (t : Tree) : List (String × NodeId) :=
  ((t.nodes.filter fun n => Tag.isTag n.name).map fun n => (n.name, n.id)).reverse

/-- A new pass over a tree. It starts from the group input. -/
def start (t : Tree) : Pass where
  tree := t.setActive (some .groupInput)
  counts := {}
  literals := 0
  index := tagIndex t
  results := []
  used := []
  constants := 0
  created := 0
  groups := []

def run {α : Type} (pass : PassM α) : Edit Fault α := fun t =>
  let (result, p) := pass (start t)
  (result, p.tree)

def getTree : PassM Tree := return (← get).tree

def modifyTree (f : Tree → Tree) : PassM Unit := modify fun p => { p with tree := f p.tree }

/-- Make an edit of the tree; its fault becomes a fault of the pass. -/
def edit {ε α : Type} (toFault : ε → Fault) (e : Edit ε α) : PassM α := fun p =>
  let (result, t) := e p.tree
  (result.mapError toFault, { p with tree := t })

def newHandle (kind : Kind) (socket : SocketRef) (boundary : Option String) : PassM Handle := do
  let p ← get
  set { p with counts := p.counts.bump kind }
  return ⟨kind, p.counts.get kind, socket, boundary⟩

/-- Markers of operands in tags. A literal takes the next place among the
literals of the pass, whatever its value. -/
def markers (literals : Nat) : List Operand → List String × Nat
  | [] => ([], literals)
  | .handle h :: rest =>
    let (more, literals) := markers literals rest
    (h.marker :: more, literals)
  | .literal _ :: rest =>
    let (more, next) := markers (literals + 1) rest
    (("p" ++ toString literals) :: more, next)

def tag (op : String) (operands : List Operand) : PassM String := do
  let p ← get
  let (marks, literals) := markers p.literals operands
  set { p with literals := literals }
  return Tag.operation op marks

def result? (tag : String) : PassM (Option (List Handle)) :=
  return (← get).results.lookup tag

def keepResult (tag : String) (handles : List Handle) : PassM Unit :=
  modify fun p => { p with results := (tag, handles) :: p.results }

def markUsed (id : NodeId) : PassM Unit := modify fun p => { p with used := id :: p.used }

end Pass

end FormulaGraph
