import FormulaGraph.Pass.Frame

/-!
How each function becomes nodes. There are four layers, each calling only the
one before: functions that one node computes; a clamp without a node of its
own; functions applied to the components of vectors; and functions composed of
others. What an emulation builds is grouped in a frame.
-/

namespace FormulaGraph

open Numeric

namespace Function

def mathSetting? : Function → Option String
  | add => some "ADD"
  | sub => some "SUBTRACT"
  | mult => some "MULTIPLY"
  | div => some "DIVIDE"
  | mod => some "MODULO"
  | floormod => some "FLOORED_MODULO"
  | pow => some "POWER"
  | log => some "LOGARITHM"
  | sqrt => some "SQRT"
  | invsqrt => some "INVERSE_SQRT"
  | abs => some "ABSOLUTE"
  | round => some "ROUND"
  | floor => some "FLOOR"
  | ceil => some "CEIL"
  | trunc => some "TRUNC"
  | frac => some "FRACT"
  | wrap => some "WRAP"
  | snap => some "SNAP"
  | pingpong => some "PINGPONG"
  | sin => some "SINE"
  | cos => some "COSINE"
  | tan => some "TANGENT"
  | asin => some "ARCSINE"
  | acos => some "ARCCOSINE"
  | atan => some "ARCTANGENT"
  | sinh => some "SINH"
  | cosh => some "COSH"
  | tanh => some "TANH"
  | rad => some "RADIANS"
  | deg => some "DEGREES"
  | min => some "MINIMUM"
  | max => some "MAXIMUM"
  | smin => some "SMOOTH_MIN"
  | smax => some "SMOOTH_MAX"
  | _ => none

def vectorSetting? : Function → Option String
  | add => some "ADD"
  | sub => some "SUBTRACT"
  | mult => some "MULTIPLY"
  | div => some "DIVIDE"
  | mod => some "MODULO"
  | wrap => some "WRAP"
  | snap => some "SNAP"
  | floor => some "FLOOR"
  | ceil => some "CEIL"
  | frac => some "FRACTION"
  | abs => some "ABSOLUTE"
  | sin => some "SINE"
  | cos => some "COSINE"
  | tan => some "TANGENT"
  | _ => none

def interpolation? : Function → Option String
  | mapl => some "LINEAR"
  | mapst => some "STEPPED"
  | mapsmo => some "SMOOTHSTEP"
  | mapsmoo => some "SMOOTHERSTEP"
  | _ => none

/-- Whether the function is applied to vectors one component at a time by an
editor. -/
def splitsIn (editor : Editor) : Function → Bool
  | pow | log | sqrt | invsqrt | round | trunc | asin | acos | atan | sinh | cosh | tanh
  | pingpong | clamp | clampauto => true
  | f => f.vectorSetting?.isSome && !editor.offers .vectorMath

end Function

namespace Pass

/-- How a function is built under a tag from its arguments. -/
abbrev Construction := (f : Function) → (tag : String) → (args : List Operand) → PassM Handle

/-- Apply a function: a call already made with the same operands gives its
handle again. -/
def applyBy (construct : Construction) (f : Function) (args : List Operand) : PassM Handle := do
  let tag ← tag f.name args
  match ← result? tag with
  | some (handle :: _) => return handle
  | _ =>
    let handle ← construct f tag args
    keepResult tag [handle]
    return handle

def slotsFrom (first : Nat) (args : List Operand) : List (Nat × Operand) :=
  args.mapIdx fun i arg => (first + i, arg)

def mathNode : Construction := fun f tag args => do
  match f.mathSetting? with
  | none => throw (.noConstruction f)
  | some op =>
    build tag
      { type := .math, settings := [("operation", op)], inputs := slotsFrom 0 args
        output := 0, kind := .scalar }

def vectorNode : Construction := fun f tag args => do
  match f.vectorSetting? with
  | none => throw (.noConstruction f)
  | some op =>
    build tag
      { type := .vectorMath, settings := [("operation", op)], inputs := slotsFrom 0 args
        output := 0, kind := .vector }

/-- A mix node has separate inputs for numbers and vectors, and a factor of
either kind when it mixes vectors. -/
def mixNode (tag : String) (factor a b : Operand) : PassM Handle :=
  if factor.isVector || a.isVector || b.isVector then
    build tag
      { type := .mix
        settings := [("data_type", "VECTOR"),
          ("factor_mode", if factor.isVector then "NON_UNIFORM" else "UNIFORM")]
        inputs := [(if factor.isVector then 1 else 0, factor), (4, a), (5, b)]
        output := 1, kind := .vector }
  else
    build tag
      { type := .mix, settings := [("data_type", "FLOAT")]
        inputs := [(0, factor), (2, a), (3, b)]
        output := 0, kind := .scalar }

def mapRangeNode (tag interpolation : String) (args : List Operand) : PassM Handle :=
  if args.any (·.isVector) then
    build tag
      { type := .mapRange
        settings := [("data_type", "FLOAT_VECTOR"), ("interpolation_type", interpolation)]
        inputs := slotsFrom 6 args, output := 1, kind := .vector }
  else
    build tag
      { type := .mapRange
        settings := [("data_type", "FLOAT"), ("interpolation_type", interpolation)]
        inputs := slotsFrom 0 args, output := 0, kind := .scalar }

def clampNode : Construction := fun f tag args =>
  build tag
    { type := .clamp
      settings := [("clamp_type", if f = .clampauto then "RANGE" else "MINMAX")]
      inputs := slotsFrom 0 args, output := 0, kind := .scalar }

/-- The centre is the last argument and may be left out. -/
def rotationNode (tag : String) (v axis angle : Operand) (center : Option Operand) : PassM Handle :=
  build tag
    { type := .vectorRotate, settings := [("rotation_type", "AXIS_ANGLE")]
      inputs := [(0, v), (2, axis), (3, angle)] ++ center.toList.map (1, ·)
      output := 0, kind := .vector }

def combineNode (tag : String) (xyz : List Operand) : PassM Handle :=
  build tag
    { type := .combineXYZ, inputs := slotsFrom 0 xyz, output := 0, kind := .vector }

def combine (x y z : Operand) : PassM Handle := do
  let tag ← tag Function.combixyz.name [x, y, z]
  combineNode tag [x, y, z]

/-- The components of a vector, read through one node. -/
def separate (v : Operand) : PassM (Handle × Handle × Handle) := do
  let tag ← tag "sepaxyz" [v]
  match ← result? tag with
  | some [x, y, z] => return (x, y, z)
  | _ =>
    let id ← nodeFor tag .separateXYZ []
    activate id
    wire id 0 v
    let x ← readOutput id 0 .scalar
    let y ← readOutput id 1 .scalar
    let z ← readOutput id 2 .scalar
    keepResult tag [x, y, z]
    return (x, y, z)

/-- Combine arguments two at a time from the left. Gives the last step and the
nodes of all steps. -/
def chainSteps (f : Function) (first : Operand) :
    List Operand → PassM (Operand × List NodeId)
  | [] => return (first, [])
  | arg :: rest => do
    let tag ← tag f.name [first, arg]
    let step ← mathNode f tag [first, arg]
    let (last, nodes) ← chainSteps f (.handle step) rest
    return (last, step.node :: nodes)

def chain : Construction := fun f tag args => do
  match args with
  | [a, b] => mathNode f tag [a, b]
  | first :: rest =>
    let (last, nodes) ← chainSteps f first rest
    frame tag "Batch MinMax" nodes
    match last with
    | .handle h => return h
    | .literal _ => throw (.noConstruction f)
  | [] => throw (.noConstruction f)

/-- First layer: functions that one node computes, or a chain of such nodes. -/
def native : Construction := fun f tag args => do
  match f, args with
  | .min, _ | .max, _ => chain f tag args
  | .lerp, [factor, a, b] | .mix, [factor, a, b] => mixNode tag factor a b
  | .clamp, _ | .clampauto, _ => clampNode f tag args
  | .combixyz, _ => combineNode tag args
  | .rotaxis, v :: axis :: angle :: center => rotationNode tag v axis angle center.head?
  | _, _ =>
    match f.interpolation? with
    | some interpolation => mapRangeNode tag interpolation args
    | none =>
      if args.any (·.isVector) then vectorNode f tag args else mathNode f tag args

/-- A clamp built from minimum and maximum. Bounds left out are 0 and 1; a
range clamp orders its bounds first. -/
def emulatedClamp (f : Function) (tag : String) (v low high : Operand) : PassM Handle := do
  if f = .clampauto then
    let lower ← applyBy native .min [low, high]
    let upper ← applyBy native .max [low, high]
    let capped ← applyBy native .min [v, .handle upper]
    let result ← applyBy native .max [.handle lower, .handle capped]
    frame tag "ClampAuto|CompositorSpecial" [lower.node, upper.node, capped.node, result.node]
    return result
  else
    let capped ← applyBy native .min [v, high]
    let result ← applyBy native .max [low, .handle capped]
    frame tag "Clamp|CompositorSpecial" [capped.node, result.node]
    return result

/-- Second layer: with clamps in editors that have no clamp node. -/
def scalarForm : Construction := fun f tag args => do
  let editor := (← getTree).editor
  match f, args with
  | .clamp, v :: bounds | .clampauto, v :: bounds =>
    if editor.offers .clamp then native f tag args
    else emulatedClamp f tag v (bounds[0]?.getD (.scalar 0)) (bounds[1]?.getD (.scalar 1))
  | _, _ => native f tag args

/-- An argument by components, with the node that splits it. A number stands
for all three components. -/
def axes (arg : Operand) : PassM ((Operand × Operand × Operand) × List NodeId) := do
  match arg with
  | .literal (.vector v) => return ((.scalar v.x, .scalar v.y, .scalar v.z), [])
  | _ =>
    if arg.isVector then
      let (x, y, z) ← separate arg
      return ((.handle x, .handle y, .handle z), [x.node])
    else return ((arg, arg, arg), [])

def axesAll : List Operand → PassM (List (Operand × Operand × Operand) × List NodeId)
  | [] => return ([], [])
  | arg :: rest => do
    let (split, node) ← axes arg
    let (splits, nodes) ← axesAll rest
    return (split :: splits, node ++ nodes)

def dedupAdjacent : List NodeId → List NodeId
  | [] => []
  | [id] => [id]
  | a :: b :: rest => if a = b then dedupAdjacent (b :: rest) else a :: dedupAdjacent (b :: rest)

def perComponent : Construction := fun f tag args => do
  let (split, separated) ← axesAll args
  let x ← applyBy scalarForm f (split.map (·.1))
  let y ← applyBy scalarForm f (split.map (·.2.1))
  let z ← applyBy scalarForm f (split.map (·.2.2))
  let combined ← combine (.handle x) (.handle y) (.handle z)
  let members := dedupAdjacent (separated ++ [x.node, y.node, z.node, combined.node])
  let parallel := args.tail.any (·.isVector)
  frame tag (if parallel then "Vec Parallel FloatMath" else "EntryWise FloatMath") members
  return combined

/-- Whether a call is built one component at a time. A clamp is so only when
its first argument is a vector. -/
def isSplit (editor : Editor) (f : Function) (args : List Operand) : Bool :=
  f.splitsIn editor && args.any (·.isVector)

/-- Third layer: with functions applied to the components of vectors. -/
def numericForm : Construction := fun f tag args => do
  if isSplit (← getTree).editor f args then perComponent f tag args else scalarForm f tag args

/-- Fourth layer: with functions composed of others. -/
def construct : Construction := fun f tag args => do
  match f, args with
  | .nroot, [a, n] =>
    let exponent ← applyBy numericForm .div [.scalar 1, n]
    let root ← applyBy numericForm .pow [a, .handle exponent]
    frame tag "nRoot" [exponent.node, root.node]
    return root
  | .neg, [a] =>
    let negated ← applyBy numericForm .sub [.scalar 0, a]
    frame tag "Negate" [negated.node]
    return negated
  | .floordiv, _ =>
    let quotient ← applyBy numericForm .div args
    let floored ← applyBy numericForm .floor [.handle quotient]
    frame tag "FloorDiv" [quotient.node, floored.node]
    return floored
  | _, _ => numericForm f tag args

/-- Build a call whose arguments have been checked. -/
def apply (f : Function) (args : List Operand) : PassM Handle := applyBy construct f args

end Pass

end FormulaGraph
