import FormulaGraph.Graph.Editor

/-!
The catalogue of node types: their sockets with defaults, and the editors that
offer them. Sockets are addressed by position, hidden ones included.
-/

namespace FormulaGraph

open Numeric

inductive Category where
  | input | output | math | vector | converter | layout
deriving DecidableEq, Repr

namespace Category

def all : List Category := [input, output, math, vector, converter, layout]

def name : Category → String
  | input => "Input"
  | output => "Output"
  | math => "Math"
  | vector => "Vector"
  | converter => "Converter"
  | layout => "Layout"

end Category

structure SocketSpec where
  name : String
  type : SocketType
  default : Option Value

namespace SocketSpec

def float (name : String) (x : Single) : SocketSpec := ⟨name, .float, some (.float x)⟩

/-- A vector socket with one number in all three components. -/
def vector (name : String) (x : Single) : SocketSpec :=
  ⟨name, .vector, some (.vector (.splat x))⟩

def bare (name : String) (type : SocketType) : SocketSpec := ⟨name, type, none⟩

end SocketSpec

inductive NodeType where
  | groupInput | groupOutput | frame | value | math | mapRange | mix | clamp
  | separateXYZ | combineXYZ | vectorMath | vectorRotate | quaternionToRotation | combineMatrix
deriving DecidableEq, Repr

namespace NodeType

/-- Every type, in the order of the catalogue. -/
def all : List NodeType :=
  [groupInput, groupOutput, frame, value, math, mapRange, mix, clamp,
   separateXYZ, combineXYZ, vectorMath, vectorRotate, quaternionToRotation, combineMatrix]

def id : NodeType → String
  | groupInput => "group_input"
  | groupOutput => "group_output"
  | frame => "frame"
  | value => "value"
  | math => "math"
  | mapRange => "map_range"
  | mix => "mix"
  | clamp => "clamp"
  | separateXYZ => "separate_xyz"
  | combineXYZ => "combine_xyz"
  | vectorMath => "vector_math"
  | vectorRotate => "vector_rotate"
  | quaternionToRotation => "quaternion_to_rotation"
  | combineMatrix => "combine_matrix"

def ofId? (id : String) : Option NodeType := all.find? (·.id == id)

def title : NodeType → String
  | groupInput => "Group Input"
  | groupOutput => "Group Output"
  | frame => "Frame"
  | value => "Value"
  | math => "Math"
  | mapRange => "Map Range"
  | mix => "Mix"
  | clamp => "Clamp"
  | separateXYZ => "Separate XYZ"
  | combineXYZ => "Combine XYZ"
  | vectorMath => "Vector Math"
  | vectorRotate => "Vector Rotate"
  | quaternionToRotation => "Quaternion to Rotation"
  | combineMatrix => "Combine Matrix"

def category : NodeType → Category
  | groupInput | value => .input
  | groupOutput => .output
  | frame => .layout
  | math | clamp => .math
  | vectorMath | vectorRotate => .vector
  | mapRange | mix | separateXYZ | combineXYZ | quaternionToRotation | combineMatrix => .converter

def description : NodeType → String
  | groupInput => "Exposes the tree inputs"
  | groupOutput => "Receives the tree outputs"
  | frame => "Visual container grouping nodes"
  | value => "Constant float value"
  | math => "Scalar math operation"
  | mapRange => "Remap a value from one range to another"
  | mix => "Linear interpolation between A and B"
  | clamp => "Clamp a value between Min and Max"
  | separateXYZ => "Split a vector into its components"
  | combineXYZ => "Build a vector from its components"
  | vectorMath => "Component-wise vector operation"
  | vectorRotate => "Rotate a vector around a center point"
  | quaternionToRotation => "Build a rotation from quaternion components"
  | combineMatrix => "Build a 4x4 matrix from column-major values"

def width : NodeType → Single
  | frame => 200
  | _ => 140

/-- The sixteen inputs of a matrix node, column by column, with the identity
as defaults. -/
def matrixInputs : List SocketSpec :=
  (List.range 16).map fun i =>
    let column := i / 4
    let row := i % 4
    .float s!"Column {column + 1} Row {row + 1}" (if column = row then 1 else 0)

open SocketSpec in
def inputs : NodeType → List SocketSpec
  | groupInput | groupOutput | frame | value => []
  | math => [float "Value" 0.5, float "Value_001" 0.5, float "Value_002" 0.5]
  | mapRange =>
    [float "Value" 1, float "From Min" 0, float "From Max" 1, float "To Min" 0,
     float "To Max" 1, float "Steps" 4,
     vector "Vector" 0, vector "From_Min_FLOAT3" 0, vector "From_Max_FLOAT3" 1,
     vector "To_Min_FLOAT3" 0, vector "To_Max_FLOAT3" 1, vector "Steps_FLOAT3" 4]
  | mix =>
    [float "Factor" 0.5, vector "Factor_Vector" 0.5, float "A" 0, float "B" 0,
     vector "A_Vector" 0, vector "B_Vector" 0]
  | clamp => [float "Value" 1, float "Min" 0, float "Max" 1]
  | separateXYZ => [vector "Vector" 0]
  | combineXYZ => [float "X" 0, float "Y" 0, float "Z" 0]
  | vectorMath =>
    [vector "Vector" 0, vector "Vector_001" 0, vector "Vector_002" 0, float "Scale" 1]
  | vectorRotate =>
    [vector "Vector" 0, vector "Center" 0, ⟨"Axis", .vector, some (.vector ⟨0, 0, 1⟩)⟩,
     float "Angle" 0, vector "Rotation" 0]
  | quaternionToRotation => [float "W" 1, float "X" 0, float "Y" 0, float "Z" 0]
  | combineMatrix => matrixInputs

open SocketSpec in
def outputs : NodeType → List SocketSpec
  | groupInput | groupOutput | frame => []
  | value => [float "Value" 0.5]
  | math => [bare "Value" .float]
  | mapRange => [bare "Result" .float, bare "Vector" .vector]
  | mix => [bare "Result" .float, bare "Result_Vector" .vector]
  | clamp => [bare "Result" .float]
  | separateXYZ => [bare "X" .float, bare "Y" .float, bare "Z" .float]
  | combineXYZ => [bare "Vector" .vector]
  | vectorMath => [bare "Vector" .vector, bare "Value" .float]
  | vectorRotate => [bare "Vector" .vector]
  | quaternionToRotation => [bare "Rotation" .rotation]
  | combineMatrix => [bare "Matrix" .matrix]

end NodeType

namespace Editor

def offers (editor : Editor) : NodeType → Bool
  | .clamp | .vectorMath | .vectorRotate => editor != compositor
  | .quaternionToRotation | .combineMatrix => editor == geometry
  | _ => true

def nodeTypes (editor : Editor) : List NodeType := NodeType.all.filter editor.offers

def nodeType? (editor : Editor) (id : String) : Option NodeType :=
  (NodeType.ofId? id).filter editor.offers

end Editor

end FormulaGraph
