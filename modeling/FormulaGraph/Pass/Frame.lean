import FormulaGraph.Pass.Wiring

/-!
Frames around the nodes of one operation, and the end of a pass.
-/

namespace FormulaGraph

open Numeric

namespace Tree

/-- A node and its enclosing frames, `limit` of them at most. -/
def ancestryWithin (t : Tree) : (limit : Nat) → NodeId → List NodeId
  | 0, id => [id]
  | limit + 1, id =>
    match t.parent? id with
    | none => [id]
    | some parent => id :: ancestryWithin t limit parent

/-- A node and its enclosing frames, from the inside. No node encloses itself,
so there are at most as many frames as nodes. -/
def ancestry (t : Tree) (id : NodeId) : List NodeId := t.ancestryWithin t.nodes.length id

/-- The outermost frame around a node below `frame`, or else around it at all;
the node itself if there is none. -/
def outermostBelow (t : Tree) (frame id : NodeId) : NodeId :=
  (id :: (t.ancestry id).tail.takeWhile (· != frame)).getLastD id

/-- What has to move for a node to come under a frame: nothing if it is there
or if that would put the frame inside itself. -/
def movedRoot? (t : Tree) (frame member : NodeId) : Option NodeId :=
  let root := t.outermostBelow frame member
  if root = frame ∨ root ∈ t.ancestry frame then none else some root

def setParent (t : Tree) (parent id : NodeId) : Tree :=
  t.modifyNode id fun n => { n with parent := some parent }

end Tree

namespace Pass

/-- Group nodes under a labelled frame named for the tag of their operation.
A node already in a frame moves with its outermost frame. -/
def frame (tag label : String) (members : List NodeId) : PassM Unit := do
  let id ← nodeFor (Tag.frameMark ++ tag) .frame []
  let t ← getTree
  let roots := members.filterMap (t.movedRoot? id)
  let position := members.head?.bind t.node? |>.map (·.position)
  modifyTree (·.modifyNode id fun n =>
    { n with label := label, position := position.getD n.position })
  modify fun p => { p with
    tree := roots.foldl (fun t root => t.setParent id root) p.tree
    groups := (id, members) :: p.groups }

def settleOutput : PassM Unit := do
  let t ← getTree
  match t.node? (t.active.getD .groupInput) with
  | none => return
  | some anchor =>
    modifyTree (·.modifyNode .groupOutput fun n =>
      { n with position := anchor.nextPosition 70 (-120) })

def stale (p : Pass) : List NodeId :=
  (p.tree.nodes.filter fun n => Tag.isTag n.name && !p.used.contains n.id).map (·.id)

/-- Remove the generated nodes that the pass has not used; tells how many
there were. -/
def dropStale : PassM Nat := do
  let ids := stale (← get)
  modifyTree fun t => ids.foldl Tree.removeNode t
  return ids.length

end Pass

end FormulaGraph
