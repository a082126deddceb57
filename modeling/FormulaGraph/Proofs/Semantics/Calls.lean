import FormulaGraph.Proofs.Pass.Components
import FormulaGraph.Proofs.Semantics.Interpretation

/-!
What calls are worth under an interpretation that works by components. It does
not depend on the editor: a clamp is the same by its own node and spelled out,
and a function of vectors is the same by a vector node and along each axis.
-/

namespace FormulaGraph

open Numeric

variable {x : Lowered} {α β : Type}

namespace Datum

def single (I : Interpretation α) (f : Function) (ds : List (Datum α)) : Datum α :=
  ((Blueprint.native isVector f ds).map (Blueprint.value I)).getD (.number (I.literal 0))

/-- An operation on numbers, along each axis if there is a vector. -/
def lift (op : List α → α) (ds : List (Datum α)) : Datum α :=
  if ds.any isVector then
    .vector (op (ds.map (along 0))) (op (ds.map (along 1))) (op (ds.map (along 2)))
  else .number (op (ds.map (along 0)))

end Datum

def Function.entrywise (f : Function) : Bool :=
  f.mathSetting?.isSome || f == .clamp || f == .clampauto

theorem Function.ne_nil_of_entrywise {f : Function} {xs : List β} (hf : f.entrywise = true)
    (h : f.signature.fault? xs.length = none) : xs ≠ [] := by
  have hpos : 0 < f.signature.required := by
    cases f <;> first | (cases hf; done) | decide
  exact List.ne_nil_of_length_pos (Nat.lt_of_lt_of_le hpos (required_le h))

namespace Interpretation

def chain (I : Interpretation α) (f : Function) : List α → α
  | [] => I.literal 0
  | x :: xs => xs.foldl (fun last y => I.float f [last, y]) x

/-- A clamp between bounds, 0 and 1 if they are left out. -/
def clampOn (I : Interpretation α) (f : Function) : List α → α
  | [] => I.literal 0
  | v :: bounds =>
    let low := bounds[0]?.getD (I.literal 0)
    let high := bounds[1]?.getD (I.literal 1)
    if f = .clampauto then
      I.float .max [I.float .min [low, high], I.float .min [v, I.float .max [low, high]]]
    else I.float .max [low, I.float .min [v, high]]

def onNumbers (I : Interpretation α) (f : Function) : List α → α :=
  match f with
  | .min | .max => I.chain f
  | .clamp | .clampauto => I.clampOn f
  | f => I.float f

def simple (I : Interpretation α) (f : Function) (ds : List (Datum α)) : Datum α :=
  if f.entrywise then .lift (I.onNumbers f) ds else .single I f ds

def apply (I : Interpretation α) (f : Function) (ds : List (Datum α)) : Datum α :=
  match f, ds with
  | .nroot, [a, n] => I.simple .pow [a, I.simple .div [.number (I.literal 1), n]]
  | .neg, [a] => I.simple .sub [.number (I.literal 0), a]
  | .floordiv, ds => I.simple .floor [I.simple .div ds]
  | f, ds => I.simple f ds

end Interpretation

namespace Blueprint

theorem row_cons (first : Nat) (a : β) (args : List β) :
    row first (a :: args) = (first, a) :: row (first + 1) args := by
  unfold row
  rw [List.mapIdx_cons, Nat.add_zero]
  refine congrArg _ (List.mapIdx_eq_mapIdx_iff.mpr fun i _ => ?_)
  rw [Nat.add_assoc, Nat.add_comm 1]

theorem lookup_row (first : Nat) (args : List β) (i : Nat) :
    (row first args).lookup (first + i) = args[i]? := by
  induction args generalizing first i with
  | nil => rfl
  | cons a args ih =>
    rw [row_cons, List.lookup_cons]
    cases i with
    | zero => simp
    | succ i =>
      have hne : (first + (i + 1) == first) = false := by simp
      rw [hne, ← Nat.add_assoc, Nat.add_right_comm, ih]
      rfl

end Blueprint

namespace Datum

variable {I : Interpretation α} {d : Datum α} {ds : List (Datum α)} {f : Function}
  {type : NodeType} {settings : List (String × String)}

theorem eq_number (h : d.isVector = false) (axis : Nat) : d = .number (d.along axis) := by
  cases d with
  | number x => rfl
  | vector x y z => cases h

theorem map_into_float (h : ∀ d ∈ ds, d.isVector = false) :
    ds.map (·.into I .float) = (ds.map (along 0)).map .number := by
  rw [List.map_map]
  refine List.map_congr_left fun d hd => ?_
  rw [eq_number (h d hd) 0]
  rfl

theorem isVector_into_vector (d : Datum α) : (d.into I .vector).isVector = true := by
  cases d <;> rfl

theorem along_into_vector (d : Datum α) (axis : Nat) :
    (d.into I .vector).along axis = d.along axis := by
  cases d with
  | number x => rcases axis with _ | _ | _ <;> rfl
  | vector x y z => rfl

def takesRow (type : NodeType) (target : SocketType) (count : Nat) : Bool :=
  (List.range count).all fun i => (type.inputs[i]?).any (·.type == target)

/-- A node with its arguments in a row, in inputs of one type. -/
theorem value_row {kind : Kind}
    {target : SocketType} {count : Nat} (hrow : takesRow type target count = true)
    (hlen : ds.length ≤ count) : Blueprint.value I ⟨type, settings, Blueprint.row 0 ds, 0, kind⟩ =
      I.run type settings (ds.map (·.into I target)) := by
  unfold Blueprint.value Interpretation.run
  refine congrArg (I.node _ _ _) (List.ext_getElem? fun i => ?_)
  rw [List.getElem?_mapIdx, List.length_map]
  unfold Blueprint.heldAt
  have hlookup := Blueprint.lookup_row 0 ds i
  rw [Nat.zero_add] at hlookup
  dsimp only
  rw [hlookup]
  by_cases hi : i < ds.length
  · have hspec := List.all_eq_true.mp hrow i (List.mem_range.mpr (Nat.lt_of_lt_of_le hi hlen))
    obtain ⟨spec, hspec, htype⟩ := (Option.any_eq_true _ _).mp hspec
    rw [List.getElem?_append_left (by rwa [List.length_map]), List.getElem?_map, hspec,
      List.getElem?_eq_getElem hi]
    dsimp only [Option.map_some]
    rw [beq_iff_eq.mp htype]
  · have hle : ds.length ≤ i := Nat.le_of_not_lt hi
    rw [List.getElem?_append_right (by rwa [List.length_map]), List.length_map, List.getElem?_map,
      List.getElem?_drop, Nat.add_sub_cancel' hle, List.getElem?_eq_none hle]

theorem along_value {args : List (Datum α)}
    {spec : SocketSpec} (hspec : type.outputs[0]? = some spec) (htype : spec.type = .float) :
    I.run type settings args = .number ((I.run type settings args).along 0) := by
  refine eq_number ?_ 0
  have htyped : (I.run type settings args).isVector = (spec.type == .vector) := I.typed _ _ hspec
  rw [htyped, htype]
  rfl

theorem single_math (hspecial : Blueprint.isSpecial f ds.length = false)
    (hi : f.interpolation? = none) (hm : f.mathSetting?.isSome = true) (hlen : ds.length ≤ 3)
    (hv : ∀ d ∈ ds, d.isVector = false) :
    single I f ds = .number (I.float f (ds.map (along 0))) := by
  obtain ⟨op, hop⟩ := Option.isSome_iff_exists.mp hm
  have hany : ds.any isVector = false := List.any_eq_false.mpr fun d hd => by rw [hv d hd]; simp
  have hrow : takesRow .math .float 3 = true := by decide
  have hnative : Blueprint.native isVector f ds = some (Blueprint.math op ds) := by
    rw [Blueprint.native_plain hspecial, Blueprint.plain, hi]
    dsimp only
    rw [hany, if_neg Bool.false_ne_true, hop, Option.map_some]
  rw [single, hnative, Option.map_some, Option.getD_some, Blueprint.math, value_row hrow hlen,
    map_into_float hv, along_value rfl rfl, Interpretation.float, hop, Option.getD_some]

variable (law : I.Componentwise)
include law

theorem single_vectorMath {op : String}
    (hspecial : Blueprint.isSpecial f ds.length = false) (hi : f.interpolation? = none)
    (hop : f.vectorSetting? = some op) (hlen : ds.length = f.signature.params.length)
    (hthree : ds.length ≤ 3) (hv : ds.any isVector = true) :
    single I f ds = lift (I.float f) ds := by
  have hrow : takesRow .vectorMath .vector 3 = true := by decide
  have hnative : Blueprint.native isVector f ds = some (Blueprint.vectorMath op ds) := by
    rw [Blueprint.native_plain hspecial, Blueprint.plain, hi]
    dsimp only
    rw [hv, if_pos rfl, hop, Option.map_some]
  have halong : ∀ axis, (ds.map (·.into I .vector)).map (along axis) = ds.map (along axis) := by
    intro axis
    rw [List.map_map]
    exact List.map_congr_left fun d _ => along_into_vector d axis
  rw [single, hnative, Option.map_some, Option.getD_some, Blueprint.vectorMath,
    value_row hrow hthree,
    law.vectorMath hop (by rwa [List.length_map]), lift, if_pos hv]
  · simp only [halong]
  · intro v hm
    obtain ⟨d, -, rfl⟩ := List.mem_map.mp hm
    exact isVector_into_vector d

/-- Bounds that are left out are what the node stores. -/
theorem run_clamp (hf : f = .clamp ∨ f = .clampauto) {xs : List α}
    (hne : xs ≠ []) (hlen : xs.length ≤ 3) :
    I.run .clamp [("clamp_type", if f == .clampauto then "RANGE" else "MINMAX")] (xs.map .number) =
      .number (I.clampOn f xs) := by
  have hbounds : ∀ v low high,
      I.run .clamp [("clamp_type", if f == .clampauto then "RANGE" else "MINMAX")]
        [.number v, .number low, .number high] = .number (I.clampOn f [v, low, high]) := by
    intro v low high
    rcases hf with rfl | rfl
    · exact law.clamp v low high
    · exact law.clampRange v low high
  match xs, hne, hlen with
  | [v], _, _ => exact hbounds v (I.literal 0) (I.literal 1)
  | [v, low], _, _ => exact hbounds v low (I.literal 1)
  | [v, low, high], _, _ => exact hbounds v low high

theorem single_clamp (hf : f = .clamp ∨ f = .clampauto)
    (hne : ds ≠ []) (hlen : ds.length ≤ 3) (hv : ∀ d ∈ ds, d.isVector = false) :
    single I f ds = .number (I.clampOn f (ds.map (along 0))) := by
  have hrow : takesRow .clamp .float 3 = true := by decide
  have hnative : Blueprint.native isVector f ds = some (Blueprint.clamp (f == .clampauto) ds) := by
    rcases hf with rfl | rfl <;> rfl
  rw [single, hnative, Option.map_some, Option.getD_some, Blueprint.clamp, value_row hrow hlen,
    map_into_float hv, run_clamp law hf (by simpa using hne) (by rwa [List.length_map])]

theorem single_combine (x y z : α) :
    single I .combixyz [.number x, .number y, .number z] = .vector x y z := law.combine x y z

end Datum

namespace Lowered

variable {I : Interpretation α} {assigned : String → Datum α} {editor : Editor} {f : Function}
  {z : Lowered × Datum α} {zs : List (Lowered × Datum α)}

theorem worth_single (law : I.Componentwise) (zs : List (Lowered × Datum α))
    (hz : ∀ z ∈ zs, z.1.Worth I assigned z.2) :
    (single f (zs.map (·.1))).Worth I assigned (Datum.single I f (zs.map (·.2))) := by
  have hflags : ∀ z ∈ zs, (Datum.isVector ∘ Prod.snd) z = (isVector ∘ Prod.fst) z :=
    fun z hm => (hz z hm).isVector.symm
  unfold single Datum.single
  rw [Blueprint.native_map Prod.fst, Blueprint.native_map Prod.snd, Blueprint.native_congr hflags]
  cases hb : Blueprint.native (isVector ∘ Prod.fst) f zs with
  | none => exact worth_number 0
  | some b =>
    have hmem := Blueprint.mem_of_native hb
    exact Blueprint.worth_lower law (Blueprint.reads_native hb) fun e he => hz e.2 (hmem e he)

theorem map_along (zs : List (Lowered × Datum α)) (axis : Nat) :
    (zs.map (·.2)).map (Datum.along axis) = zs.map (·.2.along axis) := List.map_map

theorem flags_eq (hz : ∀ z ∈ zs, z.1.Worth I assigned z.2) :
    (zs.map (·.1)).map isVector = (zs.map (·.2)).map Datum.isVector := by
  rw [List.map_map, List.map_map]
  exact List.map_congr_left fun z hm => (hz z hm).isVector

theorem worth_bound (hz : ∀ z ∈ zs, z.1.Worth I assigned z.2)
    (hv : ∀ z ∈ zs, z.2.isVector = false) (i : Nat) (default : Single) :
    ((zs.map (·.1))[i]?.getD (number default)).Worth I assigned
      (.number ((zs.map (·.2.along 0))[i]?.getD (I.literal default))) := by
  rw [List.getElem?_map, List.getElem?_map]
  cases hi : zs[i]? with
  | none => exact worth_number default
  | some z =>
    have hmem := List.mem_of_getElem? hi
    have hworth := hz z hmem
    rw [Datum.eq_number (hv z hmem) 0] at hworth
    exact hworth

variable (law : I.Componentwise)
include law

section Numbers

theorem worth_pair (hf : f = .min ∨ f = .max) {y : Lowered} {a b : α}
    (hx : x.Worth I assigned (.number a)) (hy : y.Worth I assigned (.number b)) :
    (single f [x, y]).Worth I assigned (.number (I.float f [a, b])) := by
  have hpair : (single f [x, y]).Worth I assigned (Datum.single I f [.number a, .number b]) :=
    worth_single law [(x, .number a), (y, .number b)]
      (List.forall_mem_cons.mpr ⟨hx, List.forall_mem_singleton.mpr hy⟩)
  have hsingle : Datum.single I f [.number a, .number b] = .number (I.float f [a, b]) := by
    have hnumbers : ∀ d ∈ [Datum.number a, .number b], d.isVector = false := by
      simp [Datum.isVector]
    have hlen : [Datum.number a, .number b].length ≤ 3 := by simp
    rcases hf with rfl | rfl <;> exact Datum.single_math rfl rfl rfl hlen hnumbers
  rwa [hsingle] at hpair

theorem worth_chain (hf : f = .min ∨ f = .max) {a : α}
    (hx : x.Worth I assigned (.number a)) (hz : ∀ z ∈ zs, z.1.Worth I assigned z.2)
    (hv : ∀ z ∈ zs, z.2.isVector = false) :
    (chain f (x :: zs.map (·.1))).Worth I assigned
      (.number (I.chain f (a :: zs.map (·.2.along 0)))) := by
  induction zs generalizing x a with
  | nil => exact hx
  | cons z zs ih =>
    obtain ⟨hfirst, hrest⟩ := List.forall_mem_cons.mp hz
    obtain ⟨hv, hvs⟩ := List.forall_mem_cons.mp hv
    rw [Datum.eq_number hv 0] at hfirst
    exact ih (worth_pair law hf hx hfirst) hrest hvs

theorem worth_emulatedClamp {v low high : Lowered} {a b c : α}
    (hv : v.Worth I assigned (.number a)) (hl : low.Worth I assigned (.number b))
    (hh : high.Worth I assigned (.number c)) : (emulatedClamp f v low high).Worth I assigned
      (.number (I.clampOn f [a, b, c])) := by
  have hmin : ∀ {x y : Lowered} {p q : α}, x.Worth I assigned (.number p) →
      y.Worth I assigned (.number q) →
        (native .min [x, y]).Worth I assigned (.number (I.float .min [p, q])) :=
    fun hx hy => worth_pair law (.inl rfl) hx hy
  have hmax : ∀ {x y : Lowered} {p q : α}, x.Worth I assigned (.number p) →
      y.Worth I assigned (.number q) →
        (native .max [x, y]).Worth I assigned (.number (I.float .max [p, q])) :=
    fun hx hy => worth_pair law (.inr rfl) hx hy
  unfold emulatedClamp Interpretation.clampOn
  split
  · exact hmax (hmin hl hh) (hmin hv (hmax hl hh))
  · exact hmax hl (hmin hv hh)

theorem worth_emulated (he : emulates editor f = true) (hne : zs ≠ [])
    (hz : ∀ z ∈ zs, z.1.Worth I assigned z.2) (hv : ∀ z ∈ zs, z.2.isVector = false) :
    (scalarForm editor f (zs.map (·.1))).Worth I assigned
      (.number (I.onNumbers f (zs.map (·.2.along 0)))) := by
  obtain ⟨hclamp, -⟩ := emulates_iff.mp he
  obtain ⟨z, bounds, rfl⟩ := List.exists_cons_of_ne_nil hne
  obtain ⟨hfirst, hbounds⟩ := List.forall_mem_cons.mp hz
  obtain ⟨hvz, hvs⟩ := List.forall_mem_cons.mp hv
  rw [Datum.eq_number hvz 0] at hfirst
  have hworth := worth_emulatedClamp (f := f) law hfirst (worth_bound hbounds hvs 0 0)
    (worth_bound hbounds hvs 1 1)
  rw [List.map_cons, scalarForm_of_emulates he]
  rcases hclamp with rfl | rfl <;> exact hworth

theorem worth_minmax (hf : f = .min ∨ f = .max) (hne : zs ≠ [])
    (hz : ∀ z ∈ zs, z.1.Worth I assigned z.2) (hv : ∀ z ∈ zs, z.2.isVector = false) :
    (native f (zs.map (·.1))).Worth I assigned
      (.number (I.onNumbers f (zs.map (·.2.along 0)))) := by
  obtain ⟨z, rest, rfl⟩ := List.exists_cons_of_ne_nil hne
  obtain ⟨hfirst, hrest⟩ := List.forall_mem_cons.mp hz
  obtain ⟨hvz, hvs⟩ := List.forall_mem_cons.mp hv
  rw [Datum.eq_number hvz 0] at hfirst
  have hworth := worth_chain law hf hfirst hrest hvs
  rcases hf with rfl | rfl <;> exact hworth

/-- One node for a function of numbers. -/
theorem worth_ofNumbers (hf : f.entrywise = true)
    (harity : f.signature.fault? zs.length = none) (hvar : f.signature.variadic = false)
    (hz : ∀ z ∈ zs, z.1.Worth I assigned z.2) (hv : ∀ z ∈ zs, z.2.isVector = false) :
    (single f (zs.map (·.1))).Worth I assigned
      (.number (I.onNumbers f (zs.map (·.2.along 0)))) := by
  have hworth := worth_single (f := f) law zs hz
  have hnumbers : ∀ d ∈ zs.map (·.2), d.isVector = false := by
    intro d hd
    obtain ⟨z, hm, rfl⟩ := List.mem_map.mp hd
    exact hv z hm
  have hlen : (zs.map (·.2)).length ≤ f.signature.params.length := by
    rw [List.length_map]
    exact Function.length_le harity hvar
  by_cases hclamp : f = .clamp ∨ f = .clampauto
  · have hne : zs.map (·.2) ≠ [] := by simpa using Function.ne_nil_of_entrywise hf harity
    have hthree : (zs.map (·.2)).length ≤ 3 := by rcases hclamp with rfl | rfl <;> exact hlen
    rw [Datum.single_clamp law hclamp hne hthree hnumbers, map_along] at hworth
    rcases hclamp with rfl | rfl <;> exact hworth
  · have hm : f.mathSetting?.isSome = true := by
      rw [not_or] at hclamp
      simpa [Function.entrywise, hclamp.1, hclamp.2] using hf
    have hfacts : Blueprint.isSpecial f (zs.map (·.2)).length = false ∧
        f.interpolation? = none ∧ I.onNumbers f = I.float f := by
      cases f <;> first | (cases hm; done) | (cases hvar; done) | exact ⟨rfl, rfl, rfl⟩
    have hthree := Nat.le_trans hlen (Function.params_le (.inl hm) hvar)
    rw [Datum.single_math hfacts.1 hfacts.2.1 hm hthree hnumbers, map_along] at hworth
    rwa [hfacts.2.2]

/-- Calls on numbers are worth the same in every editor. -/
theorem worth_scalarForm (hf : f.entrywise = true)
    (harity : f.signature.fault? zs.length = none) (hz : ∀ z ∈ zs, z.1.Worth I assigned z.2)
    (hv : ∀ z ∈ zs, z.2.isVector = false) : (scalarForm editor f (zs.map (·.1))).Worth I assigned
      (.number (I.onNumbers f (zs.map (·.2.along 0)))) := by
  have hne := Function.ne_nil_of_entrywise hf harity
  cases he : emulates editor f with
  | true => exact worth_emulated law he hne hz hv
  | false =>
    rw [scalarForm_of_not he]
    cases hvar : f.signature.variadic with
    | true => exact worth_minmax law (Function.variadic_iff.mp hvar) hne hz hv
    | false =>
      rw [native_of_variadic hvar]
      exact worth_ofNumbers law hf harity hvar hz hv

end Numbers

section Components

variable {axis : Nat}

theorem worth_component {d : Datum α} (h : x.Worth I assigned d) (ha : axis < 3) :
    (component axis x).Worth I assigned (.number (d.along axis)) := by
  cases hd : d.isVector with
  | false =>
    rw [component_of_scalar (h.isVector.trans hd), ← Datum.eq_number hd axis]
    exact h
  | true =>
    rw [component_of_vector (h.isVector.trans hd)]
    have hreads : (Blueprint.separate axis (x, d)).Reads := by
      match axis, ha with
      | 0, _ | 1, _ | 2, _ => exact ⟨_, rfl, .inr ⟨rfl, rfl⟩⟩
    have hworth := Blueprint.worth_lower law hreads (List.forall_mem_singleton.mpr h)
    obtain ⟨a, b, c, rfl⟩ := Datum.exists_of_isVector hd
    have hvalue : ((Blueprint.separate axis (x, Datum.vector a b c)).map Prod.snd).value I =
        .number ((Datum.vector a b c).along axis) := law.separate ha rfl
    rwa [hvalue] at hworth

theorem worth_combine {y z : Lowered} {a b c : α}
    (hx : x.Worth I assigned (.number a)) (hy : y.Worth I assigned (.number b))
    (hz : z.Worth I assigned (.number c)) :
    (single .combixyz [x, y, z]).Worth I assigned (.vector a b c) := by
  rw [← Datum.single_combine law a b c]
  refine worth_single law [(x, .number a), (y, .number b), (z, .number c)] ?_
  exact List.forall_mem_cons.mpr ⟨hx,
    List.forall_mem_cons.mpr ⟨hy, List.forall_mem_singleton.mpr hz⟩⟩

theorem worth_axis (hf : f.entrywise = true)
    (harity : f.signature.fault? zs.length = none) (hz : ∀ z ∈ zs, z.1.Worth I assigned z.2)
    (ha : axis < 3) :
    (scalarForm editor f ((zs.map (·.1)).map (component axis))).Worth I assigned
      (.number (I.onNumbers f (zs.map (·.2.along axis)))) := by
  obtain ⟨split, hsplit⟩ : ∃ split : List (Lowered × Datum α),
      split = zs.map fun z => (component axis z.1, .number (z.2.along axis)) := ⟨_, rfl⟩
  have hfst : (zs.map (·.1)).map (component axis) = split.map (·.1) := by
    rw [hsplit, List.map_map, List.map_map]
    rfl
  have hsnd : zs.map (·.2.along axis) = split.map (·.2.along 0) := by
    rw [hsplit, List.map_map]
    rfl
  have hlen : split.length = zs.length := by rw [hsplit, List.length_map]
  rw [hfst, hsnd]
  refine worth_scalarForm law hf (by rwa [hlen]) ?_ ?_
  all_goals
    intro e he
    rw [hsplit] at he
    obtain ⟨z, hm, rfl⟩ := List.mem_map.mp he
  · exact worth_component law (hz z hm) ha
  · rfl

theorem worth_perComponent (hf : f.entrywise = true)
    (harity : f.signature.fault? zs.length = none) (hz : ∀ z ∈ zs, z.1.Worth I assigned z.2) :
    (perComponent editor f (zs.map (·.1))).Worth I assigned
      (.vector (I.onNumbers f (zs.map (·.2.along 0))) (I.onNumbers f (zs.map (·.2.along 1)))
        (I.onNumbers f (zs.map (·.2.along 2)))) :=
  worth_combine law (worth_axis law hf harity hz (by decide))
    (worth_axis law hf harity hz (by decide)) (worth_axis law hf harity hz (by decide))

end Components

section Calls

/-- One vector node is worth what the function is along each axis. -/
theorem worth_whole (hset : f.vectorSetting?.isSome = true)
    (harity : f.signature.fault? zs.length = none) (hz : ∀ z ∈ zs, z.1.Worth I assigned z.2)
    (hany : (zs.map (·.2)).any Datum.isVector = true) :
    (scalarForm editor f (zs.map (·.1))).Worth I assigned
      (.vector (I.onNumbers f (zs.map (·.2.along 0))) (I.onNumbers f (zs.map (·.2.along 1)))
        (I.onNumbers f (zs.map (·.2.along 2)))) := by
  obtain ⟨op, hop⟩ := Option.isSome_iff_exists.mp hset
  have hfacts : emulates editor f = false ∧ f.signature.variadic = false ∧
      Blueprint.isSpecial f (zs.map (·.2)).length = false ∧ f.interpolation? = none ∧
      f.signature.required = f.signature.params.length ∧ f.mathSetting?.isSome = true ∧
      I.onNumbers f = I.float f := by
    cases f <;> first | (cases hset; done) | exact ⟨rfl, rfl, rfl, rfl, rfl, rfl, rfl⟩
  obtain ⟨hemulates, hvar, hspecial, hi, hrequired, hm, hfloat⟩ := hfacts
  have hlen : (zs.map (·.2)).length = f.signature.params.length := by
    rw [List.length_map]
    exact Nat.le_antisymm (Function.length_le harity hvar)
      (hrequired ▸ Function.required_le harity)
  have hthree := hlen ▸ Function.params_le (.inl hm) hvar
  have hworth := worth_single (f := f) law zs hz
  rw [Datum.single_vectorMath law hspecial hi hop hlen hthree hany, Datum.lift, if_pos hany]
    at hworth
  simp only [map_along] at hworth
  rw [scalarForm_of_not hemulates, native_of_variadic hvar, hfloat]
  exact hworth

/-- A call that is not spelled out in others is worth the same in every editor. -/
theorem worth_numericForm (hc : f.Callable editor ((zs.map (·.2)).map Datum.isVector))
    (hs : f.composed = false)
    (hz : ∀ z ∈ zs, z.1.Worth I assigned z.2) :
    (numericForm editor f (zs.map (·.1))).Worth I assigned (I.simple f (zs.map (·.2))) := by
  have harity : f.signature.fault? zs.length = none := by simpa using hc.arity
  have hvectors : (zs.map (·.1)).any isVector = (zs.map (·.2)).any Datum.isVector := by
    rw [← any_flags, flags_eq hz, List.any_map]
    rfl
  rw [numericForm_eq, Interpretation.simple, hvectors]
  cases hf : f.entrywise with
  | false =>
    have hfacts : f.splitsIn editor = false ∧ emulates editor f = false ∧
        f.signature.variadic = false := by
      cases f <;> first | (cases hf; done) | exact ⟨rfl, rfl, rfl⟩
    rw [hfacts.1, Bool.false_and, if_neg Bool.false_ne_true, if_neg Bool.false_ne_true,
      scalarForm_of_not hfacts.2.1, native_of_variadic hfacts.2.2]
    exact worth_single law zs hz
  | true =>
    rw [if_pos rfl, Datum.lift]
    simp only [map_along]
    cases hany : (zs.map (·.2)).any Datum.isVector with
    | false =>
      rw [Bool.and_false, if_neg Bool.false_ne_true, if_neg Bool.false_ne_true]
      exact worth_scalarForm law hf harity hz fun z hm =>
        Bool.eq_false_iff.mpr (List.any_eq_false.mp hany z.2 (List.mem_map_of_mem hm))
    | true =>
      rw [if_pos rfl, Bool.and_true]
      split
      · exact worth_perComponent law hf harity hz
      · next hsplit =>
        have hall := hc.not_allScalar (by rw [List.any_map]; exact hany)
        have hwhole := Bool.eq_false_iff.mpr hsplit
        have hm : f.mathSetting?.isSome = true := by
          cases f <;> first | (cases hwhole; done) | (cases hf; done) | rfl
        exact worth_whole law (Blueprint.vectorSetting_of_whole hm hall hwhole).1 harity hz hany

/-- A call is worth what its function makes of its arguments, in every editor. -/
theorem worth_apply (hc : f.Callable editor ((zs.map (·.2)).map Datum.isVector))
    (hz : ∀ z ∈ zs, z.1.Worth I assigned z.2) :
    (apply editor f (zs.map (·.1))).Worth I assigned (I.apply f (zs.map (·.2))) := by
  have harity : f.signature.fault? zs.length = none := by simpa using hc.arity
  -- The functions that others are spelled out in take vectors anywhere.
  have part : ∀ {g : Function}, g = .div ∨ g = .pow ∨ g = .sub ∨ g = .floor →
      ∀ ws : List (Lowered × Datum α), g.signature.fault? ws.length = none →
        (∀ w ∈ ws, w.1.Worth I assigned w.2) →
          (numericForm editor g (ws.map (·.1))).Worth I assigned (I.simple g (ws.map (·.2))) := by
    intro g hg ws ha hw
    rw [← List.length_map (·.2), ← List.length_map Datum.isVector] at ha
    refine worth_numericForm law (Function.callable_of_free ?_ ha ?_ ?_) ?_ hw <;>
      rcases hg with rfl | rfl | rfl | rfl <;> rfl
  cases hs : f.composed with
  | false =>
    have hsimple : I.apply f (zs.map (·.2)) = I.simple f (zs.map (·.2)) := by
      cases f <;> first | rfl | cases hs
    rw [apply_of_simple hs, hsimple]
    exact worth_numericForm law hc hs hz
  | true =>
    cases f with
    | nroot =>
      obtain ⟨a, n, rfl⟩ := List.length_eq_two.mp (Signature.length_of_fixed harity)
      obtain ⟨ha, hn⟩ := List.forall_mem_cons.mp hz
      have hquotient := part (.inl rfl) [(number 1, .number (I.literal 1)), n] rfl
        (List.forall_mem_cons.mpr ⟨worth_number 1, hn⟩)
      exact part (.inr (.inl rfl)) [a, (_, _)] rfl
        (List.forall_mem_cons.mpr ⟨ha, List.forall_mem_singleton.mpr hquotient⟩)
    | neg =>
      obtain ⟨a, rfl⟩ := List.length_eq_one_iff.mp (Signature.length_of_fixed harity)
      exact part (.inr (.inr (.inl rfl))) [(number 0, .number (I.literal 0)), a] rfl
        (List.forall_mem_cons.mpr ⟨worth_number 0, hz⟩)
    | floordiv =>
      have hquotient := part (.inl rfl) zs harity hz
      exact part (.inr (.inr (.inr rfl))) [(_, _)] rfl (List.forall_mem_singleton.mpr hquotient)
    | _ => cases hs

end Calls

end Lowered

end FormulaGraph
