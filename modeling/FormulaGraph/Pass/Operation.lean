import FormulaGraph.Function.Folding
import FormulaGraph.Pass.Boundary
import FormulaGraph.Pass.Construction

/-!
The operations of a pass on operands: boundary sockets as operands, calls of
functions, and access to the components of vectors. What is wrong with the
operands is found before the tree is edited, as far as it can be.
-/

namespace FormulaGraph.Pass

open Numeric

/-- A handle on the input of a name, with a default if one is given. -/
def input (name : String) (kind : Kind) (default : Option Literal) : PassM Handle := do
  match kind.socketType? with
  | none => throw (.inputKind name kind)
  | some type =>
    let id ← edit .boundary (Tree.socketFor .input name type)
    if let some l := default then storeLiteral .input id l
    newHandle kind ⟨.groupInput, id⟩ (some name)

/-- A handle on the output of a name, to be assigned values of a kind. -/
def output (name : String) (kind : Kind) : PassM Handle := do
  match kind.socketType? with
  | none => throw (.outputKind name)
  | some type =>
    let id ← edit .boundary (Tree.socketFor .output name type)
    newHandle .output ⟨.groupOutput, id⟩ (some name)

/-- Route a value into an output in place of what fed it. -/
def assign (target : Handle) (value : Operand) : PassM Unit := do
  if target.kind ≠ .output then throw (.notAnOutput target.kind)
  match value with
  | .handle h =>
    if h.kind = .output then throw (.outputAsValue h.boundaryName)
    if ((← getTree).feedOf? target.socket.socket).map (·.source) ≠ some h.socket then
      edit .link (Tree.reconnect h.socket target.socket)
  | .literal l => storeLiteral .output target.socket.socket l

/-- The first argument that is a vector where the function takes none. -/
def vectorMisfit? (f : Function) (args : List Operand) : Option Nat :=
  (List.range args.length).find? fun i =>
    (f.allScalar || f.scalarPlaces.contains i) && (args[i]?.any (·.isVector))

def kindFault? (f : Function) (args : List Operand) : Option Fault :=
  if args.any (!·.kind.isNumeric) then some (.unsupportedKinds f (args.map (·.kind)))
  else (vectorMisfit? f args).map fun i => .vectorArgument f (f.paramName i)

/-- What is wrong with a call: the number of arguments, then the editor, then
their kinds. -/
def callFault? (editor : Editor) (f : Function) (args : List Operand) : Option Fault :=
  match f.signature.fault? args.length with
  | some fault => some (.arguments f.name fault)
  | none =>
    if !f.offeredBy editor then some (.unavailableFunction f editor) else kindFault? f args

def number? : Operand → Option Double
  | .literal l => l.toSingle?.map Single.toDouble
  | .handle _ => none

def folded? (f : Function) (args : List Operand) : Option Single :=
  if f.folds then ((args.mapM number?).bind f.fold?).map Double.toSingle else none

def call (f : Function) (args : List Operand) : PassM Operand := do
  match callFault? (← getTree).editor f args with
  | some fault => throw fault
  | none =>
    match folded? f args with
    | some x => return .scalar x
    | none => return .handle (← apply f args)

def requireVector (use : VectorUse) (v : Handle) : PassM Unit :=
  if v.kind = .vector then return else throw (.notAVector use v.kind)

def requireComponent (value : Operand) : PassM Unit :=
  if value.kind.isScalarLike then return else throw (.notAComponent value.kind)

inductive Axis where
  | x | y | z
deriving DecidableEq, Repr

/-- The axis of an index; negative ones count from the end. -/
def axis (index : Int) : PassM Axis :=
  if index = 0 ∨ index = -3 then return .x
  else if index = 1 ∨ index = -2 then return .y
  else if index = 2 ∨ index = -1 then return .z
  else throw (.componentIndex index)

def components (v : Handle) : PassM (Handle × Handle × Handle) := do
  requireVector .access v
  separate (.handle v)

def component (v : Handle) (index : Int) : PassM Handle := do
  requireVector .access v
  let axis ← axis index
  let (x, y, z) ← components v
  return match axis with
    | .x => x
    | .y => y
    | .z => z

structure Update where
  x : Option Operand := none
  y : Option Operand := none
  z : Option Operand := none

def Update.put (u : Update) (axis : Axis) (value : Operand) : Update :=
  match axis with
  | .x => { u with x := some value }
  | .y => { u with y := some value }
  | .z => { u with z := some value }

/-- Collect updates by index; a later one for the same axis wins. -/
def collect (u : Update) : List (Int × Operand) → PassM Update
  | [] => return u
  | (index, value) :: rest => do
    let axis ← axis index
    requireComponent value
    collect (u.put axis value) rest

/-- The vector with some components replaced. Those that are not are read from
it; the nodes are framed together. -/
def replaceSome (v : Handle) (updates : List (Int × Operand)) : PassM Handle := do
  requireVector .assignment v
  let update ← collect {} updates
  let frameTag ← tag "mutate" [.handle v]
  let (combined, separated) ← match update.x, update.y, update.z with
    | some x, some y, some z => do pure (← combine x y z, [])
    | _, _, _ => do
      let (x, y, z) ← separate (.handle v)
      let combined ← combine (update.x.getD (.handle x)) (update.y.getD (.handle y))
        (update.z.getD (.handle z))
      pure (combined, [x.node])
  frame frameTag "Vector Mutation" (separated ++ [combined.node])
  return combined

def requireComponents : List Operand → PassM Unit
  | [] => return
  | value :: rest => do
    requireComponent value
    requireComponents rest

def replaceEvery (v : Handle) (values : List Operand) : PassM Handle := do
  requireVector .slice v
  match values with
  | [x, y, z] =>
    requireComponents [x, y, z]
    replaceSome v [(0, x), (1, y), (2, z)]
  | _ => throw .sliceLength

end FormulaGraph.Pass
