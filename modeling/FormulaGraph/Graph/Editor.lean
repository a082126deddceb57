import FormulaGraph.Graph.Value

/-!
The editors a tree can live in. An editor decides which socket types its
boundary has.
-/

namespace FormulaGraph

inductive Editor where
  | geometry | shader | compositor
deriving DecidableEq, Repr

namespace Editor

def all : List Editor := [geometry, shader, compositor]

def name : Editor → String
  | geometry => "Geometry"
  | shader => "Shader"
  | compositor => "Compositor"

def socketTypes : Editor → List SocketType
  | geometry => [.float, .int, .vector, .color, .bool, .rotation, .matrix]
  | shader => [.float, .int, .vector, .color, .bool]
  | compositor => [.float, .int, .vector, .color]

/-- The boundary type used for a requested one: the compositor keeps booleans
as integers, and a type without a stand-in is refused. -/
def adjust? (editor : Editor) (type : SocketType) : Option SocketType :=
  let type := if editor = compositor ∧ type = .bool then .int else type
  if type ∈ editor.socketTypes then some type else none

end Editor

end FormulaGraph
