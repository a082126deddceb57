import FormulaGraph.Graph.Tree

/-!
Linking sockets. A link needs an output and a free input of fitting types, and
must not close a loop; the checks are made in a fixed order and the first
that fails is reported.
-/

namespace FormulaGraph

inductive LinkFault where
  | nodeMissing (id : NodeId)
  | socketMissing (id : SocketId)
  | wrongDirection
  | incompatible (source target : SocketType)
  | occupied (id : SocketId)
  | selfLoop
  | cycle
deriving DecidableEq, Repr

/-- Identities are not spelled out. -/
def LinkFault.message : LinkFault → String
  | nodeMissing _ => "Node not found: NodeId(?)"
  | socketMissing _ => "Port not found: PortId(?)"
  | wrongDirection => "Links must go from an output port to an input port"
  | incompatible source target => s!"Cannot link a {source.name} port into a {target.name} port"
  | occupied _ => "Port already connected: PortId(?)"
  | selfLoop => "Self-loop not allowed"
  | cycle => "Link would create a cycle"

namespace Link

def feeders (links : List Link) (id : NodeId) : List NodeId :=
  (links.filter (·.target.node == id)).map (·.source.node)

/-- How many links a search that has seen some nodes has yet to follow. -/
def unfollowed (links : List Link) (seen : List NodeId) : Nat :=
  links.countP (·.target.node ∉ seen)

theorem unfollowed_eq (links : List Link) {id : NodeId} {seen : List NodeId} (h : id ∉ seen) :
    unfollowed links seen = (feeders links id).length + unfollowed links (id :: seen) := by
  unfold unfollowed feeders
  induction links with
  | nil => rfl
  | cons l links ih =>
    rw [List.countP_cons, List.countP_cons, ih, List.filter_cons]
    by_cases hl : l.target.node = id
    · simp [hl, h]
      omega
    · simp [hl]
      omega

/-- Search back along links for a node, from the nodes of a stack. A node that
was seen is passed over; for another the nodes that feed it go onto the stack,
the last one on top. The stack may grow, but no link is followed twice. -/
def leadsBack (links : List Link) (feeder : NodeId) (stack seen : List NodeId) : Bool :=
  match stack with
  | [] => false
  | current :: rest =>
    if current = feeder then true
    else if current ∈ seen then leadsBack links feeder rest seen
    else leadsBack links feeder ((feeders links current).reverse ++ rest) (current :: seen)
termination_by stack.length + unfollowed links seen
decreasing_by
  · simp
  · rename_i hnew
    have := unfollowed_eq links hnew
    simp
    omega

end Link

namespace Tree

/-- Whether a node reads from another one, directly or through others. Every
node reads from itself. -/
def dependsOn (t : Tree) (node feeder : NodeId) : Bool :=
  Link.leadsBack t.links feeder [node] []

def feedOf? (t : Tree) (input : SocketId) : Option Link :=
  t.links.find? (·.target.socket == input)

/-- What forbids a link, the first of the checks that fails. -/
def linkFault? (t : Tree) (source target : SocketRef) : Option LinkFault :=
  match t.node? source.node with
  | none => some (.nodeMissing source.node)
  | some sourceNode =>
  match t.node? target.node with
  | none => some (.nodeMissing target.node)
  | some targetNode =>
  match sourceNode.socket? source.socket with
  | none => some (.socketMissing source.socket)
  | some output =>
  match targetNode.socket? target.socket with
  | none => some (.socketMissing target.socket)
  | some input =>
    if output.side ≠ .output ∨ input.side ≠ .input then some .wrongDirection
    else if !output.fits input then some (.incompatible output.type input.type)
    else if !input.multiConnect && t.links.any (·.target.socket == target.socket) then
      some (.occupied target.socket)
    else if source.node = target.node then some .selfLoop
    else if t.dependsOn source.node target.node then some .cycle
    else none

/-- Add a link at the end, unchecked. -/
def addLink (t : Tree) (source target : SocketRef) : Tree :=
  { t with links := t.links ++ [⟨⟨t.supply⟩, source, target⟩], supply := t.supply + 1 }

def disconnect (t : Tree) (input : SocketId) : Tree :=
  { t with links := t.links.filter (·.target.socket != input) }

def feedCount (t : Tree) (input : SocketId) : Nat :=
  t.links.countP (·.target.socket == input)

def connect (source target : SocketRef) : Edit LinkFault Unit := do
  match (← get).linkFault? source target with
  | some fault => throw fault
  | none => modify (·.addLink source target)

/-- Link an output to an input in place of what fed it. When the new link is
refused the old ones come back, at the end. -/
def reconnect (source target : SocketRef) : Edit LinkFault Unit := do
  let previous := (← get).links.filter (·.target.socket == target.socket)
  modify (·.disconnect target.socket)
  try connect source target
  catch fault =>
    modify fun t => { t with links := t.links ++ previous }
    throw fault

def stillFits (t : Tree) (l : Link) : Bool :=
  match (t.node? l.source.node).bind (·.socket? l.source.socket),
    (t.node? l.target.node).bind (·.socket? l.target.socket) with
  | some output, some input => output.fits input
  | _, _ => false

end Tree

end FormulaGraph
