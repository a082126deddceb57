import FormulaGraph.Pass.Wiring

/-!
Boundary sockets as a pass keeps them: inputs follow the variables of the
formula, outputs are made or retyped and never removed.
-/

namespace FormulaGraph

open Numeric

def Side.plural : Side → String
  | .input => "inputs"
  | .output => "outputs"

namespace Tree

/-- The boundary socket of a name, made or retyped as needed. -/
def socketFor (side : Side) (name : String) (type : SocketType) :
    Edit BoundaryFault SocketId := do
  let t ← get
  let wanted ← t.adjustType type
  match t.boundaryNamed? side name with
  | some socket =>
    if socket.type ≠ wanted then discard (retypeSocket socket.id wanted)
    return socket.id
  | none => addSocket name side wanted

def inputsExcept (t : Tree) (keep : List String) : List SocketId :=
  ((t.socketsOn .input).filter fun s => !keep.contains s.name).map (·.id)

def dropSocket (t : Tree) (id : SocketId) : Tree := ((removeSocket id).run t).2

def keepInputs (t : Tree) (keep : List String) : Tree :=
  (t.inputsExcept keep).foldl dropSocket t

def releaseOutput (t : Tree) (name : String) : Tree :=
  match t.boundaryNamed? .output name with
  | some socket => t.disconnect socket.id
  | none => t

end Tree

namespace Pass

/-- The numbers of a literal that only a node can hold, with the node type
that assembles them and its name in tags. -/
def assembly? : Literal → SocketType → Option (String × NodeType × List Single)
  | .rotation w x y z, .rotation => some ("Quat", .quaternionToRotation, [w, x, y, z])
  | .matrix entries, .matrix => some ("Matrix", .combineMatrix, entries.toList)
  | _, _ => none

def groupNode : Side → NodeId
  | .input => .groupInput
  | .output => .groupOutput

/-- Where the node that assembles the default of a boundary socket goes. -/
def assemblerPosition (t : Tree) (side : Side) (place : Nat) : Point :=
  let anchor := ((t.node? (groupNode side)).map (·.position)).getD .origin
  ⟨anchor.x - 250, anchor.y - .ofNat (150 * place)⟩

/-- The node that assembles the default of a boundary socket. It is named for
the place of the socket on its side. -/
def assembler (side : Side) (socket : Socket) (l : Literal) : PassM NodeId := do
  match assembly? l socket.type with
  | none => throw (.literalOnBoundary l.kind socket.type)
  | some (word, type, numbers) =>
    let place := ((← getTree).boundaryIndex? socket.id).getD 0
    let tag := Tag.defaultMark ++ s!"{word}|{side.plural}[{place}]"
    let id ← nodeFor tag type []
    wireAll id (numbers.mapIdx fun slot x => (slot, .scalar x))
    modifyTree fun t =>
      t.modifyNode id fun n => { n with position := assemblerPosition t side place }
    return id

/-- Store a literal on a boundary socket in place of what fed it. Where the
socket has no default, a node assembles the value and feeds the output. -/
def storeLiteral (side : Side) (id : SocketId) (l : Literal) : PassM Unit := do
  match (← getTree).boundarySocket? id with
  | none => throw (.boundary (.missing id))
  | some socket =>
    if socket.type.hasDefault then
      match l.toValue? with
      | none => throw (.literalOnBoundary l.kind socket.type)
      | some value =>
        if side = .output then modifyTree (·.disconnect id)
        discard (edit .boundary (Tree.setSocketDefault id value))
    else
      let node ← assembler side socket l
      if side = .output then
        let t ← getTree
        match (t.node? node).bind (·.outputs[0]?) with
        | none => throw (.missingOutput 0)
        | some output =>
          let source : SocketRef := ⟨node, output.id⟩
          if (t.feedOf? id).map (·.source) ≠ some source then
            edit .link (Tree.reconnect source ⟨.groupOutput, id⟩)

end Pass

end FormulaGraph
