import FormulaGraph.Compile
import FormulaGraph.Proofs.Numeric.Narrowing

/-!
What a formula means, said without a tree. A term is lowered to operations of
node types on the values of their inputs: calls on numbers alone are folded,
functions that no node computes are spelled out in those that one does, and
numbers are narrowed where they enter an operation. Nothing here depends on
names, numbers of handles or the nodes of earlier passes, and the operations of
the functions stand in tables of their own.
-/

namespace FormulaGraph

open Numeric

/-- What a socket stands for. An operation lists all inputs of its node type,
also those that the formula does not feed. -/
inductive Meaning where
  | variable (name : String)
  | constant (x : Single)
  | stored (value : Option Value)
  | operation (type : NodeType) (settings : Ordered String) (output : Nat) (inputs : List Meaning)
  | converted (source target : SocketType) (value : Meaning)

/-- A value as it arrives over a link between sockets of two types. -/
def Meaning.into (value : Meaning) (source target : SocketType) : Meaning :=
  if source = target then value else converted source target value

/-- An argument of an operation: a plain number, or the value of a socket. -/
inductive Lowered where
  | number (x : Single)
  | carried (kind : Kind) (type : SocketType) (value : Meaning)

namespace Lowered

def kind : Lowered → Kind
  | number _ => .scalar
  | carried kind _ _ => kind

def isVector (x : Lowered) : Bool := x.kind == .vector

def feeding (x : Lowered) (target : SocketType) : Meaning :=
  match x with
  | number x => .stored ((Value.float x).convert target)
  | carried _ source value => value.into source target

end Lowered

namespace Function

/-- What math nodes compute. -/
def mathOperations : List (Function × String) :=
  [(add, "ADD"), (sub, "SUBTRACT"), (mult, "MULTIPLY"), (div, "DIVIDE"), (mod, "MODULO"),
    (floormod, "FLOORED_MODULO"), (pow, "POWER"), (log, "LOGARITHM"), (sqrt, "SQRT"),
    (invsqrt, "INVERSE_SQRT"), (abs, "ABSOLUTE"), (round, "ROUND"), (floor, "FLOOR"),
    (ceil, "CEIL"), (trunc, "TRUNC"), (frac, "FRACT"), (wrap, "WRAP"), (snap, "SNAP"),
    (pingpong, "PINGPONG"), (sin, "SINE"), (cos, "COSINE"), (tan, "TANGENT"), (asin, "ARCSINE"),
    (acos, "ARCCOSINE"), (atan, "ARCTANGENT"), (sinh, "SINH"), (cosh, "COSH"), (tanh, "TANH"),
    (rad, "RADIANS"), (deg, "DEGREES"), (min, "MINIMUM"), (max, "MAXIMUM"),
    (smin, "SMOOTH_MIN"), (smax, "SMOOTH_MAX")]

/-- What vector math nodes compute. -/
def vectorOperations : List (Function × String) :=
  [(add, "ADD"), (sub, "SUBTRACT"), (mult, "MULTIPLY"), (div, "DIVIDE"), (mod, "MODULO"),
    (wrap, "WRAP"), (snap, "SNAP"), (floor, "FLOOR"), (ceil, "CEIL"), (frac, "FRACTION"),
    (abs, "ABSOLUTE"), (sin, "SINE"), (cos, "COSINE"), (tan, "TANGENT")]

/-- What map range nodes compute. -/
def interpolations : List (Function × String) :=
  [(mapl, "LINEAR"), (mapst, "STEPPED"), (mapsmo, "SMOOTHSTEP"), (mapsmoo, "SMOOTHERSTEP")]

/-- Functions of numbers that take vectors one component at a time. -/
def componentwise : List Function :=
  [pow, log, sqrt, invsqrt, round, trunc, pingpong, asin, acos, atan, sinh, cosh, tanh, clamp,
    clampauto]

/-- Whether an editor computes the function on vectors one component at a time. -/
def splits (editor : Editor) (f : Function) : Bool :=
  componentwise.contains f || (vectorOperations.lookup f).isSome && !editor.offers .vectorMath

/-- Functions of one number that are computed at once. -/
def foldings : List (Function × (Double → Double)) :=
  [(sin, Double.sin), (cos, Double.cos), (tan, Double.tan), (asin, Double.asin),
    (acos, Double.acos), (atan, Double.atan), (sinh, Double.sinh), (cosh, Double.cosh),
    (tanh, Double.tanh), (sqrt, Double.sqrt), (invsqrt, Double.inverseSqrt),
    (rad, Double.toRadians), (deg, Double.toDegrees)]

end Function

/-- How one node takes arguments: its type and settings, the input of each
argument, and the output that is read with its kind. -/
structure Blueprint (α : Type) where
  type : NodeType
  settings : List (String × String) := []
  inputs : List (Nat × α)
  output : Nat := 0
  kind : Kind := .scalar

namespace Blueprint

variable {α : Type}

def row (first : Nat) (args : List α) : List (Nat × α) := args.mapIdx fun i a => (first + i, a)

def math (operation : String) (args : List α) : Blueprint α :=
  { type := .math, settings := [("operation", operation)], inputs := row 0 args }

def vectorMath (operation : String) (args : List α) : Blueprint α :=
  { type := .vectorMath, settings := [("operation", operation)], inputs := row 0 args
    kind := .vector }

def mix (isVector : α → Bool) (factor a b : α) : Blueprint α :=
  if isVector factor || isVector a || isVector b then
    { type := .mix
      settings := [("data_type", "VECTOR"),
        ("factor_mode", if isVector factor then "NON_UNIFORM" else "UNIFORM")]
      inputs := [(if isVector factor then 1 else 0, factor), (4, a), (5, b)]
      output := 1, kind := .vector }
  else
    { type := .mix, settings := [("data_type", "FLOAT")]
      inputs := [(0, factor), (2, a), (3, b)] }

def mapRange (isVector : α → Bool) (interpolation : String) (args : List α) : Blueprint α :=
  if args.any isVector then
    { type := .mapRange
      settings := [("data_type", "FLOAT_VECTOR"), ("interpolation_type", interpolation)]
      inputs := row 6 args, output := 1, kind := .vector }
  else
    { type := .mapRange
      settings := [("data_type", "FLOAT"), ("interpolation_type", interpolation)]
      inputs := row 0 args }

def clamp (ordersBounds : Bool) (args : List α) : Blueprint α :=
  { type := .clamp, settings := [("clamp_type", if ordersBounds then "RANGE" else "MINMAX")]
    inputs := row 0 args }

def rotation (v axis angle : α) (center : Option α) : Blueprint α :=
  { type := .vectorRotate, settings := [("rotation_type", "AXIS_ANGLE")]
    inputs := [(0, v), (2, axis), (3, angle)] ++ center.toList.map (1, ·), kind := .vector }

def combine (args : List α) : Blueprint α :=
  { type := .combineXYZ, inputs := row 0 args, kind := .vector }

def separate (axis : Nat) (v : α) : Blueprint α :=
  { type := .separateXYZ, inputs := [(0, v)], output := axis }

/-- The node that computes a function of arguments by itself. -/
def native (isVector : α → Bool) (f : Function) (args : List α) : Option (Blueprint α) :=
  match f, args with
  | .lerp, [factor, a, b] | .mix, [factor, a, b] => some (mix isVector factor a b)
  | .clamp, args => some (clamp false args)
  | .clampauto, args => some (clamp true args)
  | .combixyz, args => some (combine args)
  | .rotaxis, v :: axis :: angle :: center => some (rotation v axis angle center.head?)
  | f, args =>
    match Function.interpolations.lookup f with
    | some interpolation => some (mapRange isVector interpolation args)
    | none =>
      if args.any isVector then (Function.vectorOperations.lookup f).map (vectorMath · args)
      else (Function.mathOperations.lookup f).map (math · args)

def outputType (b : Blueprint α) : SocketType :=
  ((b.type.outputs[b.output]?).map (·.type)).getD .float

/-- The operation of the node: inputs without an argument hold what the node
type stores in them. -/
def meaning (b : Blueprint Lowered) : Meaning :=
  .operation b.type (Ordered.empty.insertAll b.settings) b.output
    (b.type.inputs.mapIdx fun i spec =>
      match b.inputs.lookup i with
      | some x => x.feeding spec.type
      | none => .stored spec.default)

def lower (b : Blueprint Lowered) : Lowered := .carried b.kind b.outputType b.meaning

end Blueprint

namespace Lowered

def single (f : Function) (args : List Lowered) : Lowered :=
  ((Blueprint.native isVector f args).map Blueprint.lower).getD (number 0)

def chain (f : Function) : List Lowered → Lowered
  | [] => number 0
  | first :: rest => rest.foldl (fun last arg => single f [last, arg]) first

def native (f : Function) (args : List Lowered) : Lowered :=
  match f with
  | .min | .max => chain f args
  | f => single f args

def emulatedClamp (f : Function) (v low high : Lowered) : Lowered :=
  if f = .clampauto then
    native .max [native .min [low, high], native .min [v, native .max [low, high]]]
  else native .max [low, native .min [v, high]]

/-- A function of single numbers. Bounds that a clamp leaves out are 0 and 1. -/
def scalarForm (editor : Editor) (f : Function) (args : List Lowered) : Lowered :=
  match f, args with
  | .clamp, v :: bounds | .clampauto, v :: bounds =>
    if editor.offers .clamp then native f args
    else emulatedClamp f v (bounds[0]?.getD (number 0)) (bounds[1]?.getD (number 1))
  | f, args => native f args

def component (axis : Nat) (x : Lowered) : Lowered :=
  if x.isVector then (Blueprint.separate axis x).lower else x

def perComponent (editor : Editor) (f : Function) (args : List Lowered) : Lowered :=
  let along (axis : Nat) := scalarForm editor f (args.map (component axis))
  single .combixyz [along 0, along 1, along 2]

def numericForm (editor : Editor) (f : Function) (args : List Lowered) : Lowered :=
  if f.splits editor && args.any isVector then perComponent editor f args
  else scalarForm editor f args

theorem numericForm_eq (editor : Editor) (f : Function) (args : List Lowered) :
    numericForm editor f args = if f.splitsIn editor && args.any isVector then
      perComponent editor f args else scalarForm editor f args := by
  have hsplits : f.splits editor = f.splitsIn editor := by cases f <;> cases editor <;> decide
  rw [numericForm, hsplits]

/-- A function of arguments of any kind. -/
def apply (editor : Editor) (f : Function) (args : List Lowered) : Lowered :=
  match f, args with
  | .nroot, [a, n] => numericForm editor .pow [a, numericForm editor .div [number 1, n]]
  | .neg, [a] => numericForm editor .sub [number 0, a]
  | .floordiv, args => numericForm editor .floor [numericForm editor .div args]
  | f, args => numericForm editor f args

/-- A variable, on a boundary socket of the type that stands for its kind. -/
def ofVariable (editor : Editor) (kind : Kind) (name : String) : Lowered :=
  carried kind ((kind.socketType?.bind editor.adjust?).getD .float) (.variable name)

end Lowered

/-- The value of a term: a number in full precision, or an argument. -/
inductive Figure where
  | number (x : Double)
  | value (x : Lowered)

namespace Figure

def number? : Figure → Option Double
  | number x => some x
  | value _ => none

def argument (constantNodes : Bool) : Figure → Lowered
  | number x =>
    if constantNodes then .carried .scalar .float (.constant x.narrowed) else .number x.narrowed
  | value x => x

def result : Figure → Lowered
  | number x => .number x.narrowed
  | value x => x

/-- The value of a call on numbers alone, if it is computed at once. -/
def folded? (f : Function) (args : List Figure) : Option Double :=
  match f, args.mapM number? with
  | .log, some (x :: base :: _) => some (x.log base)
  | f, some (x :: _) => (Function.foldings.lookup f).map (· x)
  | _, _ => none

theorem argument_number (constantNodes : Bool) (x : Double) : (number x).argument constantNodes =
    if constantNodes then .carried .scalar .float (.constant x.toSingle)
    else .number x.toSingle := by
  rw [argument, x.toSingle_eq_narrowed]

theorem result_number (x : Double) : (number x).result = .number x.toSingle := by
  rw [result, x.toSingle_eq_narrowed]

theorem folded?_eq_fold (f : Function) (args : List Figure) : folded? f args =
    if f.folds then (args.mapM number?).bind f.fold? else none := by
  unfold folded?
  rcases args.mapM number? with - | - | ⟨x, - | ⟨y, rest⟩⟩ <;> cases f <;> rfl

end Figure

namespace Term

mutual

def lower (editor : Editor) (options : Options) : Term → Figure
  | constant x => .number x
  | name n => .value (.ofVariable editor (options.kindOf n) n)
  | call f args =>
    let figures := lowerAll editor options args
    match Figure.folded? f figures with
    | some x => .number x
    | none => .value (.apply editor f (figures.map (·.argument options.constantNodes)))

def lowerAll (editor : Editor) (options : Options) : List Term → List Figure
  | [] => []
  | t :: rest => lower editor options t :: lowerAll editor options rest

end

def outputType (editor : Editor) (dialect : Dialect) (kind : Kind) : SocketType :=
  (((Pass.outputKindFor dialect kind).socketType?).bind editor.adjust?).getD .float

/-- What the output of a formula stands for. -/
def meaning (editor : Editor) (options : Options) (t : Term) : Meaning :=
  let value := (t.lower editor options).result
  value.feeding (outputType editor options.dialect value.kind)

end Term

end FormulaGraph
