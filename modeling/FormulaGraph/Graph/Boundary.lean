import FormulaGraph.Graph.Link

/-!
The boundary sockets of a tree: its inputs and outputs as seen from outside.
After every edit the group nodes are given the sockets of the boundary anew.
-/

namespace FormulaGraph

inductive BoundaryFault where
  | duplicate (side : Side) (name : String)
  | unavailable (type : SocketType) (editor : Editor)
  | missing (id : SocketId)
deriving DecidableEq, Repr

/-- Identities are not spelled out. -/
def BoundaryFault.message : BoundaryFault → String
  | duplicate side name => s!"{side.name} socket '{name}' already exists"
  | unavailable type editor =>
    s!"{type.name} sockets are unavailable in the {editor.name} editor"
  | missing _ => "Interface socket not found: PortId(?)"

namespace Tree

def socketsOn (t : Tree) (side : Side) : List Socket := t.boundary.filter (·.side == side)

def boundarySocket? (t : Tree) (id : SocketId) : Option Socket := t.boundary.find? (·.id == id)

def boundaryNamed? (t : Tree) (side : Side) (name : String) : Option Socket :=
  t.boundary.find? fun s => s.side == side && s.name == name

/-- The place of a boundary socket among those of its side. -/
def boundaryIndex? (t : Tree) (id : SocketId) : Option Nat :=
  (t.boundarySocket? id).bind fun s => (t.socketsOn s.side).findIdx? (·.id == id)

/-- The sockets of a side as the group node shows them inside, where they are
linked like new ones. -/
def shownInside (t : Tree) (side : Side) : List Socket :=
  (t.socketsOn side).map fun s =>
    { s with side := side.opposite, multiConnect := side.opposite.multiConnect }

/-- Give the group nodes the sockets of the boundary. -/
def syncGroups (t : Tree) : Tree :=
  (t.modifyNode .groupInput fun n => { n with outputs := t.shownInside .input }).modifyNode
    .groupOutput fun n => { n with inputs := t.shownInside .output }

def modifySocket (t : Tree) (id : SocketId) (f : Socket → Socket) : Tree :=
  syncGroups { t with boundary := t.boundary.map fun s => if s.id == id then f s else s }

/-- The type the editor uses in place of a requested one. -/
def adjustType (t : Tree) (type : SocketType) : Except BoundaryFault SocketType :=
  match t.editor.adjust? type with
  | some type => .ok type
  | none => .error (.unavailable type t.editor)

def addSocket (name : String) (side : Side) (type : SocketType) : Edit BoundaryFault SocketId := do
  let t ← get
  if (t.boundaryNamed? side name).isSome then throw (.duplicate side name)
  let type ← t.adjustType type
  let id : SocketId := ⟨t.supply⟩
  set (syncGroups
    { t with boundary := t.boundary ++ [⟨id, name, side, type, none, false⟩]
             supply := t.supply + 1 })
  return id

def removeSocket (id : SocketId) : Edit BoundaryFault Socket := do
  let t ← get
  match t.boundarySocket? id with
  | none => throw (.missing id)
  | some socket =>
    set (syncGroups
      { t with
        boundary := t.boundary.filter (·.id != id)
        links := t.links.filter (!·.touchesSocket id) })
    return socket

/-- Change the type of a boundary socket. Its default is converted, and links
that no longer fit are dropped. -/
def retypeSocket (id : SocketId) (type : SocketType) : Edit BoundaryFault SocketType := do
  let t ← get
  let type ← t.adjustType type
  match t.boundarySocket? id with
  | none => throw (.missing id)
  | some socket =>
    if socket.type ≠ type then
      let t := t.modifySocket id fun s =>
        { s with type := type, default := s.default.bind (·.convert type) }
      set { t with links := t.links.filter fun l => !l.touchesSocket id || t.stillFits l }
    return type

/-- Set the default of a boundary socket to a value converted to its type.
Tells whether that changed anything. -/
def setSocketDefault (id : SocketId) (value : Value) : Edit BoundaryFault Bool := do
  let t ← get
  match t.boundarySocket? id with
  | none => throw (.missing id)
  | some socket =>
    let value := value.convert socket.type
    if socket.default = value then return false
    set (t.modifySocket id fun s => { s with default := value })
    return true

end Tree

end FormulaGraph
