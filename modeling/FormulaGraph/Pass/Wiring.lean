import FormulaGraph.Numeric.Decimal
import FormulaGraph.Pass.State

/-!
Making, finding and wiring the nodes of a pass.
-/

namespace FormulaGraph

open Numeric

/-- What is made of a tag: a node type, its settings, the operands of its
inputs and the output that is read. -/
structure NodePlan where
  type : NodeType
  settings : List (String × String) := []
  inputs : List (Nat × Operand)
  output : Nat
  kind : Kind

namespace Pass

def changedTint : Tint := ⟨128, 51, 153⟩

/-- Where a new node goes: beside the active one. -/
def nextPosition (t : Tree) : Point :=
  match t.activeNode? with
  | some n => n.nextPosition 70 (-90)
  | none => ⟨0, 200⟩

def refresh (settings : List (String × String)) (n : Node) : Node :=
  n.setProperties (settings.filter fun s => n.property? s.1 != some s.2)

def makeNode (tag : String) (type : NodeType) (settings : List (String × String)) :
    PassM NodeId := do
  let p ← get
  if !p.tree.editor.offers type then throw (.unavailableNode type p.tree.editor)
  let (tree, id) := p.tree.addNode type
    { name := some tag, position := nextPosition p.tree, properties := settings }
  set { p with
    tree := tree
    index := (tag, id) :: p.index
    used := id :: p.used
    created := p.created + 1 }
  return id

def unindex (tag : String) : PassM Unit :=
  modify fun p => { p with index := p.index.filter (·.1 != tag) }

/-- The node of a tag. A node of the right type is used again; one of another
type is removed and replaced. -/
def nodeFor (tag : String) (type : NodeType) (settings : List (String × String)) :
    PassM NodeId := do
  let p ← get
  match p.index.lookup tag with
  | none => makeNode tag type settings
  | some id =>
    match p.tree.node? id with
    | none =>
      unindex tag
      makeNode tag type settings
    | some n =>
      if n.type = type then
        modifyTree (·.modifyNode id (refresh settings))
        markUsed id
        return id
      else
        modifyTree (·.removeNode id)
        unindex tag
        makeNode tag type settings

def activate (id : NodeId) : PassM Unit := modifyTree (·.setActive (some id))

/-- Wire an operand into an input of a node. A handle is linked in place of
another source. A literal takes the place of a link as the default of the
input, and a default that changes marks the node. -/
def wire (id : NodeId) (slot : Nat) (operand : Operand) : PassM Unit := do
  let t ← getTree
  match (t.node? id).bind (·.inputs[slot]?) with
  | none => throw (.missingInput slot)
  | some input =>
    match operand with
    | .handle h =>
      if h.kind = .output then throw (.unreadableOutput h.boundaryName)
      if (t.feedOf? input.id).map (·.source) ≠ some h.socket then
        edit .link (Tree.reconnect h.socket ⟨id, input.id⟩)
    | .literal l =>
      match l.toValue?.bind (·.convert input.type) with
      | none => throw (.literalIntoSocket l.kind input.type)
      | some value =>
        modifyTree (·.disconnect input.id)
        if input.default ≠ some value then
          modifyTree (·.modifyNode id fun n =>
            { n.setInputDefault slot value with color := some changedTint })

def readOutput (id : NodeId) (slot : Nat) (kind : Kind) : PassM Handle := do
  match ((← getTree).node? id).bind (·.outputs[slot]?) with
  | none => throw (.missingOutput slot)
  | some output => newHandle kind ⟨id, output.id⟩ none

def wireAll (id : NodeId) : List (Nat × Operand) → PassM Unit
  | [] => return
  | (slot, operand) :: rest => do
    wire id slot operand
    wireAll id rest

/-- The handle that a tag gives by a plan, built at most once in a pass. The
node becomes active. -/
def build (tag : String) (plan : NodePlan) : PassM Handle := do
  match ← result? tag with
  | some (handle :: _) => return handle
  | _ =>
    let id ← nodeFor tag plan.type plan.settings
    activate id
    wireAll id plan.inputs
    let handle ← readOutput id plan.output plan.kind
    keepResult tag [handle]
    return handle

/-- Where the constant of a number goes: in a column below the group input. -/
def constantPosition (t : Tree) (number : Nat) : Point :=
  let anchor := ((t.node? .groupInput).map (·.position)).getD .origin
  ⟨anchor.x, anchor.y - 330 - .ofNat (90 * number)⟩

def constant (x : Double) : PassM Handle := do
  let tag := Tag.constantMark ++ x.text
  match ← result? tag with
  | some (handle :: _) => return handle
  | _ =>
    let id ← nodeFor tag .value []
    let p ← get
    let position := constantPosition p.tree p.constants
    set { p with
      tree := p.tree.modifyNode id fun n =>
        { n.setOutputDefault 0 (.float x.toSingle) with position := position }
      constants := p.constants + 1 }
    let handle ← readOutput id 0 .scalar
    keepResult tag [handle]
    return handle

end Pass

end FormulaGraph
