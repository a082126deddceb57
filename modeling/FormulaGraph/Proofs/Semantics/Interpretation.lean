import FormulaGraph.Proofs.Pass.CallKinds

/-!
Interpretations of nodes. What a formula stands for is evaluated under any
reading of the nodes over any numbers. An argument of an operation is worth a
number or a vector, whatever socket carries it, and one node takes arguments to
a value that depends on what they are worth alone.
-/

namespace FormulaGraph

open Numeric

variable {α : Type}

/-- What a socket carries: a number or a vector. -/
inductive Datum (α : Type) where
  | number (x : α)
  | vector (x y z : α)

namespace Datum

def isVector : Datum α → Bool
  | number _ => false
  | vector _ _ _ => true

theorem exists_of_isVector {d : Datum α} (h : d.isVector = true) : ∃ x y z, d = vector x y z := by
  cases d with
  | number x => cases h
  | vector x y z => exact ⟨x, y, z, rfl⟩

def along (axis : Nat) : Datum α → α
  | number x => x
  | vector x y z =>
    match axis with
    | 0 => x
    | 1 => y
    | _ => z

end Datum

/-- A reading of nodes: the numbers that literals stand for, what each output of
a node is for given settings and inputs, and what links between types do. -/
structure Interpretation (α : Type) where
  literal : Single → α
  node : NodeType → Ordered String → (output : Nat) → List (Datum α) → Datum α
  convert : (source target : SocketType) → Datum α → Datum α
  /-- Outputs carry what their type says. -/
  typed : ∀ {type : NodeType} {output : Nat} {spec : SocketSpec} (settings : Ordered String)
    (inputs : List (Datum α)), type.outputs[output]? = some spec →
      (node type settings output inputs).isVector = (spec.type == .vector)

namespace Interpretation

def held (I : Interpretation α) : Option Value → Datum α
  | some (.vector v) | some (.color v _) => .vector (I.literal v.x) (I.literal v.y) (I.literal v.z)
  | some v => .number (I.literal v.toSingle)
  | none => .number (I.literal 0)

/-- A node with arguments in its first inputs and defaults in the others. -/
def run (I : Interpretation α) (type : NodeType) (settings : List (String × String))
    (args : List (Datum α)) : Datum α :=
  I.node type (Ordered.empty.insertAll settings) 0
    (args ++ (type.inputs.drop args.length).map fun spec => I.held spec.default)

def float (I : Interpretation α) (f : Function) (args : List α) : α :=
  (I.run .math [("operation", f.mathSetting?.getD "")] (args.map .number)).along 0

/-- Vector nodes that work by components. -/
structure Componentwise (I : Interpretation α) : Prop where
  separate : ∀ {axis : Nat} {v : Datum α}, axis < 3 → v.isVector = true →
    I.node .separateXYZ .empty axis [v] = .number (v.along axis)
  combine : ∀ x y z, I.node .combineXYZ .empty 0 [.number x, .number y, .number z] = .vector x y z
  broadcast : ∀ x, I.convert .float .vector (.number x) = .vector x x x
  /-- Vector math does what math does, along each axis. -/
  vectorMath : ∀ {f : Function} {op : String} {vs : List (Datum α)}, f.vectorSetting? = some op →
    vs.length = f.signature.params.length → (∀ v ∈ vs, v.isVector = true) →
      I.run .vectorMath [("operation", op)] vs = .vector (I.float f (vs.map (·.along 0)))
        (I.float f (vs.map (·.along 1))) (I.float f (vs.map (·.along 2)))
  clamp : ∀ v low high,
    I.run .clamp [("clamp_type", "MINMAX")] [.number v, .number low, .number high] =
      .number (I.float .max [low, I.float .min [v, high]])
  /-- A range clamp orders its bounds. -/
  clampRange : ∀ v low high,
    I.run .clamp [("clamp_type", "RANGE")] [.number v, .number low, .number high] =
      .number (I.float .max [I.float .min [low, high], I.float .min [v, I.float .max [low, high]]])

/-- A number that can stand on sockets for Booleans and for integers, and that
links pass on as it is. -/
def Truth (I : Interpretation α) (x : α) : Prop :=
  ∀ source, source = .bool ∨ source = .int → I.convert source .float (.number x) = .number x ∧
    I.convert source .vector (.number x) = .vector x x x

def Assigns (I : Interpretation α) (options : Options) (assigned : String → Datum α) : Prop :=
  ∀ name, match options.kindOf name with
    | .scalar => ∃ x, assigned name = .number x
    | .vector => ∃ x y z, assigned name = .vector x y z
    | .boolean => ∃ x, I.Truth x ∧ assigned name = .number x
    | _ => True

/-- An operation on integers; those that are not here return their first argument. -/
def arithmetic (op : String) : List Int → Int
  | x :: y :: _ =>
    if op = "ADD" then x + y
    else if op = "SUBTRACT" then x - y
    else if op = "MULTIPLY" then x * y
    else if op = "MAXIMUM" then max x y
    else if op = "MINIMUM" then min x y
    else x
  | [x] => x
  | [] => 0

def entry (type : NodeType) (settings : Ordered String) (output : Nat)
    (inputs : List (Datum Int)) (axis : Nat) : Int :=
  match type, inputs.map (Datum.along 0) with
  | .separateXYZ, _ => (inputs.map (Datum.along output)).headD 0
  | .combineXYZ, numbers => numbers.getD axis 0
  | .clamp, [v, low, high] =>
    if settings.get? "clamp_type" = some "RANGE" then
      max (min low high) (min v (max low high))
    else max low (min v high)
  | _, _ => arithmetic ((settings.get? "operation").getD "") (inputs.map (Datum.along axis))

/-- Nodes over integers. -/
def integers : Interpretation Int where
  literal x := x.toInt32.toInt
  node type settings output inputs :=
    let entry := entry type settings output inputs
    if (type.outputs[output]?.map (·.type)) = some .vector then
      .vector (entry 0) (entry 1) (entry 2)
    else .number (entry 0)
  convert _ target d :=
    match d, target with
    | .number x, .vector => .vector x x x
    | .vector x _ _, .float => .number x
    | d, _ => d
  typed := by
    intro type output spec settings inputs h
    rw [h]
    by_cases hv : spec.type = .vector <;> simp [hv, Datum.isVector]

theorem componentwise_integers : integers.Componentwise where
  separate := by
    intro axis v h hv
    match axis, h with
    | 0, _ | 1, _ | 2, _ => rfl
  combine _ _ _ := rfl
  broadcast _ := rfl
  vectorMath := by
    intro f op vs hop hlen hvs
    cases f <;> cases hop
    case add | sub | mult | div | mod | snap =>
      obtain ⟨u, v, rfl⟩ := List.length_eq_two.mp hlen
      rfl
    case wrap =>
      obtain ⟨u, v, w, rfl⟩ := List.length_eq_three.mp hlen
      rfl
    case floor | ceil | frac | abs | sin | cos | tan =>
      obtain ⟨v, rfl⟩ := List.length_eq_one_iff.mp hlen
      rfl
  clamp _ _ _ := rfl
  clampRange _ _ _ := rfl

/-- An integer for each variable, or three for a vector. -/
def ofKinds (options : Options) (name : String) : Datum Int :=
  match options.kindOf name with
  | .vector => .vector 3 (-4) 0
  | _ => .number 1

theorem assigns_ofKinds (options : Options) : integers.Assigns options (ofKinds options) := by
  intro name
  unfold ofKinds
  generalize options.kindOf name = kind
  cases kind with
  | scalar => exact ⟨_, rfl⟩
  | vector => exact ⟨_, _, _, rfl⟩
  | boolean =>
    refine ⟨_, ?_, rfl⟩
    rintro source (rfl | rfl) <;> exact ⟨rfl, rfl⟩
  | rotation | matrix | output => trivial

end Interpretation

namespace Meaning

mutual

/-- The value of what a socket stands for. -/
def eval (I : Interpretation α) (assigned : String → Datum α) : Meaning → Datum α
  | .variable name => assigned name
  | .constant x => .number (I.literal x)
  | .stored value => I.held value
  | .operation type settings output inputs =>
    I.node type settings output (evalAll I assigned inputs)
  | .converted source target value => I.convert source target (eval I assigned value)

def evalAll (I : Interpretation α) (assigned : String → Datum α) : List Meaning → List (Datum α)
  | [] => []
  | m :: rest => eval I assigned m :: evalAll I assigned rest

end

theorem evalAll_eq_map (I : Interpretation α) (assigned : String → Datum α) (ms : List Meaning) :
    evalAll I assigned ms = ms.map (eval I assigned) := by
  induction ms with
  | nil => rfl
  | cons m ms ih => rw [evalAll, ih, List.map_cons]

end Meaning

def Datum.into (I : Interpretation α) (d : Datum α) (target : SocketType) : Datum α :=
  match d, target with
  | number x, .vector => .vector x x x
  | vector x y z, .float => I.convert .vector .float (.vector x y z)
  | d, _ => d

theorem NodeType.type_of_mem_inputs {type : NodeType} {spec : SocketSpec} (h : spec ∈ type.inputs) :
    spec.type = .float ∨ spec.type = .vector := by
  have hall : (type.inputs.all fun spec => spec.type == .float || spec.type == .vector) = true := by
    cases type <;> decide +kernel
  simpa using List.all_eq_true.mp hall spec h

section Worth

variable {I : Interpretation α} {assigned : String → Datum α} {x : Lowered} {d : Datum α}

/-- An argument that is worth a datum at every input. -/
structure Lowered.Worth (I : Interpretation α) (assigned : String → Datum α) (x : Lowered)
    (d : Datum α) : Prop where
  numeric : x.kind.isNumeric = true
  isVector : x.isVector = d.isVector
  feeding : ∀ {target : SocketType}, target = .float ∨ target = .vector →
    (x.feeding target).eval I assigned = d.into I target

theorem Meaning.eval_into (m : Meaning) {source target : SocketType} (h : source ≠ target) :
    (m.into source target).eval I assigned = I.convert source target (m.eval I assigned) := by
  rw [into, if_neg h, eval]

theorem Meaning.eval_into_self (m : Meaning) (type : SocketType) :
    (m.into type type).eval I assigned = m.eval I assigned := by
  rw [into, if_pos rfl]

namespace Lowered

variable {m : Meaning}

theorem worth_number (x : Single) : Worth I assigned (number x) (.number (I.literal x)) where
  numeric := rfl
  isVector := rfl
  feeding := by rintro target (rfl | rfl) <;> rfl

theorem worth_scalar (law : I.Componentwise) {y : α} (h : m.eval I assigned = .number y) :
    Worth I assigned (carried .scalar .float m) (.number y) where
  numeric := rfl
  isVector := rfl
  feeding := by
    have hne : SocketType.float ≠ .vector := nofun
    rintro target (rfl | rfl)
    · rw [feeding, Meaning.eval_into_self, h]
      rfl
    · rw [feeding, Meaning.eval_into m hne, h, law.broadcast]
      rfl

theorem worth_vector (h : (m.eval I assigned).isVector = true) :
    Worth I assigned (carried .vector .vector m) (m.eval I assigned) where
  numeric := rfl
  isVector := h.symm
  feeding := by
    have hne : SocketType.vector ≠ .float := nofun
    obtain ⟨x, y, z, hd⟩ := Datum.exists_of_isVector h
    rintro target (rfl | rfl)
    · rw [feeding, Meaning.eval_into m hne, hd]
      rfl
    · rw [feeding, Meaning.eval_into_self, hd]
      rfl

theorem worth_boolean {y : α} (hy : I.Truth y) (h : m.eval I assigned = .number y)
    {type : SocketType} (ht : type = .bool ∨ type = .int) :
    Worth I assigned (carried .boolean type m) (.number y) where
  numeric := rfl
  isVector := rfl
  feeding := by
    obtain ⟨hfloat, hvector⟩ := hy type ht
    have hne : type ≠ .float ∧ type ≠ .vector := by
      rcases ht with rfl | rfl <;> exact ⟨nofun, nofun⟩
    rintro target (rfl | rfl)
    · rw [feeding, Meaning.eval_into m hne.1, h, hfloat]
      rfl
    · rw [feeding, Meaning.eval_into m hne.2, h, hvector]
      rfl

end Lowered

namespace Blueprint

def heldAt (I : Interpretation α) (b : Blueprint (Datum α)) (i : Nat) (spec : SocketSpec) :
    Datum α :=
  match b.inputs.lookup i with
  | some d => d.into I spec.type
  | none => I.held spec.default

def value (I : Interpretation α) (b : Blueprint (Datum α)) : Datum α :=
  I.node b.type (Ordered.empty.insertAll b.settings) b.output (b.type.inputs.mapIdx (b.heldAt I))

/-- A node whose arguments are worth something is worth what it makes of that. -/
theorem eval_meaning {b : Blueprint (Lowered × Datum α)}
    (h : ∀ e ∈ b.inputs, e.2.1.Worth I assigned e.2.2) :
    (b.map Prod.fst).meaning.eval I assigned = (b.map Prod.snd).value I := by
  unfold meaning value
  rw [Meaning.eval, Meaning.evalAll_eq_map]
  refine congrArg (I.node _ _ _) (List.ext_getElem? fun i => ?_)
  rw [List.getElem?_map, List.getElem?_mapIdx, List.getElem?_mapIdx]
  dsimp only [map]
  cases hs : b.type.inputs[i]? with
  | none => rfl
  | some spec =>
    have hspec := NodeType.type_of_mem_inputs (List.mem_of_getElem? hs)
    unfold heldAt
    dsimp only [Option.map_some]
    rw [lookup_map_snd Prod.fst, lookup_map_snd Prod.snd]
    cases hl : b.inputs.lookup i with
    | none => rfl
    | some z =>
      obtain ⟨front, back, heq, -⟩ := List.lookup_eq_some_iff.mp hl
      have hz := h (i, z) (by rw [heq]; simp)
      exact congrArg some (hz.feeding hspec)

/-- A blueprint that reads an output of its kind. -/
def Reads {β : Type} (b : Blueprint β) : Prop :=
  ∃ spec, b.type.outputs[b.output]? = some spec ∧
    (b.kind = .vector ∧ spec.type = .vector ∨ b.kind = .scalar ∧ spec.type = .float)

theorem reads_native {β : Type} {isV : β → Bool} {f : Function} {args : List β} {b : Blueprint β}
    (h : native isV f args = some b) : b.Reads := by
  have hmix : ∀ x y z, (mix isV x y z).Reads := by
    intro x y z
    unfold mix
    split
    · exact ⟨_, rfl, .inl ⟨rfl, rfl⟩⟩
    · exact ⟨_, rfl, .inr ⟨rfl, rfl⟩⟩
  unfold native at h
  split at h
  · cases h
    exact hmix _ _ _
  · cases h
    exact hmix _ _ _
  · cases h
    exact ⟨_, rfl, .inr ⟨rfl, rfl⟩⟩
  · cases h
    exact ⟨_, rfl, .inr ⟨rfl, rfl⟩⟩
  · cases h
    exact ⟨_, rfl, .inl ⟨rfl, rfl⟩⟩
  · cases h
    exact ⟨_, rfl, .inl ⟨rfl, rfl⟩⟩
  · split at h
    · cases h
      unfold mapRange
      split
      · exact ⟨_, rfl, .inl ⟨rfl, rfl⟩⟩
      · exact ⟨_, rfl, .inr ⟨rfl, rfl⟩⟩
    · split at h
      · obtain ⟨op, -, rfl⟩ := Option.map_eq_some_iff.mp h
        exact ⟨_, rfl, .inl ⟨rfl, rfl⟩⟩
      · obtain ⟨op, -, rfl⟩ := Option.map_eq_some_iff.mp h
        exact ⟨_, rfl, .inr ⟨rfl, rfl⟩⟩

theorem worth_lower (law : I.Componentwise) {b : Blueprint (Lowered × Datum α)} (hb : b.Reads)
    (h : ∀ e ∈ b.inputs, e.2.1.Worth I assigned e.2.2) :
    (b.map Prod.fst).lower.Worth I assigned ((b.map Prod.snd).value I) := by
  obtain ⟨spec, hspec, hkind⟩ := hb
  have heval := eval_meaning h
  have htyped : ((b.map Prod.snd).value I).isVector = (spec.type == .vector) := I.typed _ _ hspec
  have htype : (b.map Prod.fst).outputType = spec.type := by
    unfold outputType
    dsimp only [map]
    rw [hspec]
    rfl
  unfold lower
  rw [htype, show (b.map Prod.fst).kind = b.kind from rfl]
  rcases hkind with ⟨hk, ht⟩ | ⟨hk, ht⟩
  · rw [hk, ht, ← heval]
    refine Lowered.worth_vector ?_
    rw [heval, htyped, ht]
    rfl
  · rw [hk, ht]
    cases hd : (b.map Prod.snd).value I with
    | number y => exact Lowered.worth_scalar law (heval.trans hd)
    | vector x y z =>
      rw [hd, ht] at htyped
      cases htyped

end Blueprint

end Worth

end FormulaGraph
