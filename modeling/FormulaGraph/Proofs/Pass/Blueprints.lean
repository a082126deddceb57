import FormulaGraph.Proofs.Lowering

/-!
How functions become single nodes. What a node is like depends on the function
and on which arguments are vectors, not on the arguments themselves; so the
plans of a pass and the operations of lowered terms come from one blueprint.
-/

namespace FormulaGraph

open Numeric

variable {f : Function}

def NodeType.isBuilt : NodeType → Bool
  | .groupInput | .groupOutput => false
  | _ => true

namespace Blueprint

variable {α β : Type}

def map (g : α → β) (b : Blueprint α) : Blueprint β where
  type := b.type
  settings := b.settings
  inputs := b.inputs.map fun e => (e.1, g e.2)
  output := b.output
  kind := b.kind

variable (g : α → β) (isV : β → Bool)

theorem row_map (first : Nat) (args : List α) :
    row first (args.map g) = (row first args).map fun e => (e.1, g e.2) := by
  apply List.ext_getElem?
  intro i
  simp [row, List.getElem?_mapIdx, Function.comp_def]

theorem any_map (args : List α) : (args.map g).any isV = args.any (isV ∘ g) := by
  rw [List.any_map]

theorem mix_map (factor a b : α) :
    mix isV (g factor) (g a) (g b) = (mix (isV ∘ g) factor a b).map g := by
  unfold mix
  simp only [Function.comp_apply]
  split <;> rfl

theorem mapRange_map (interpolation : String) (args : List α) :
    mapRange isV interpolation (args.map g) = (mapRange (isV ∘ g) interpolation args).map g := by
  unfold mapRange
  rw [any_map]
  split <;> simp [map, row_map]

theorem rotation_map (v axis angle : α) (center : Option α) :
    rotation (g v) (g axis) (g angle) (center.map g) = (rotation v axis angle center).map g := by
  cases center <;> rfl

theorem math_map (op : String) (args : List α) : math op (args.map g) = (math op args).map g := by
  simp [math, map, row_map]

theorem vectorMath_map (op : String) (args : List α) :
    vectorMath op (args.map g) = (vectorMath op args).map g := by
  simp [vectorMath, map, row_map]

theorem clamp_map (b : Bool) (args : List α) : clamp b (args.map g) = (clamp b args).map g := by
  simp [clamp, map, row_map]

theorem combine_map (args : List α) : combine (args.map g) = (combine args).map g := by
  simp [combine, map, row_map]

def plain (isV : α → Bool) (f : Function) (args : List α) : Option (Blueprint α) :=
  match f.interpolation? with
  | some interpolation => some (mapRange isV interpolation args)
  | none =>
    if args.any isV then f.vectorSetting?.map (vectorMath · args)
    else f.mathSetting?.map (math · args)

theorem plain_map (f : Function) (args : List α) :
    plain isV f (args.map g) = (plain (isV ∘ g) f args).map (map g) := by
  unfold plain
  rw [any_map]
  cases f.interpolation? with
  | some interpolation => exact congrArg some (mapRange_map g isV interpolation args)
  | none =>
    dsimp only
    split
    · cases f.vectorSetting? with
      | none => rfl
      | some op => exact congrArg some (vectorMath_map g op args)
    · cases f.mathSetting? with
      | none => rfl
      | some op => exact congrArg some (math_map g op args)

/-- Calls whose node is no plain one. -/
def isSpecial (f : Function) (count : Nat) : Bool :=
  match f with
  | .lerp | .mix => count == 3
  | .rotaxis => 3 ≤ count
  | .clamp | .clampauto | .combixyz => true
  | _ => false

theorem native_plain {isV : α → Bool} {args : List α} (hf : isSpecial f args.length = false) :
    native isV f args = plain isV f args := by
  cases f with
  | lerp | mix =>
    match args, hf with
    | [], _ | [_], _ | [_, _], _ | _ :: _ :: _ :: _ :: _, _ => rfl
  | rotaxis =>
    match args, hf with
    | [], _ | [_], _ | [_, _], _ => rfl
    | _ :: _ :: _ :: _, h => simp [isSpecial] at h
  | clamp | clampauto | combixyz => cases hf
  | _ => rfl

theorem native_map (f : Function) (args : List α) :
    native isV f (args.map g) = (native (isV ∘ g) f args).map (map g) := by
  cases hf : isSpecial f args.length with
  | false => rw [native_plain hf, native_plain (by rw [List.length_map]; exact hf), plain_map]
  | true =>
    cases f with
    | lerp | mix =>
      match args, hf with
      | [factor, a, b], _ => exact congrArg some (mix_map g isV factor a b)
    | clamp | clampauto => exact congrArg some (clamp_map g _ args)
    | combixyz => exact congrArg some (combine_map g args)
    | rotaxis =>
      match args, hf with
      | v :: axis :: angle :: center, _ =>
        refine congrArg some ?_
        rw [← rotation_map, ← List.head?_map]
    | _ => cases hf

def plan (b : Blueprint Operand) : NodePlan where
  type := b.type
  settings := b.settings
  inputs := b.inputs
  output := b.output
  kind := b.kind

/-- A blueprint that its node type can follow: every argument has an input of
its own for numbers or vectors, and the output that is read is there. -/
structure Proper (b : Blueprint α) : Prop where
  settings : (b.settings.map Prod.fst).Nodup
  slots : (b.inputs.map Prod.fst).Nodup
  inputs : ∀ e ∈ b.inputs, ∃ spec, b.type.inputs[e.1]? = some spec ∧ spec.type.isNumeric = true
  output : ∃ spec, b.type.outputs[b.output]? = some spec ∧ spec.type.isNumeric = true
  kind : b.kind.isNumeric = true
  type : b.type ≠ .value

theorem Proper.type_ne_frame {b : Blueprint α} (h : b.Proper) : b.type ≠ .frame := by
  obtain ⟨spec, hspec, -⟩ := h.output
  intro hframe
  rw [hframe] at hspec
  cases hspec

structure Neat (b : Blueprint α) : Prop where
  settings : (b.settings.map Prod.fst).Nodup
  slots : (b.inputs.map Prod.fst).Nodup
  built : b.type.isBuilt = true

/-- Whether a node type has inputs for numbers or vectors in a row. -/
def hasRow (type : NodeType) (first count : Nat) : Bool :=
  (List.range count).all fun i => (type.inputs[first + i]?).any (·.type.isNumeric)

theorem slots_row (first : Nat) (args : List α) :
    (row first args).map Prod.fst = List.range' first args.length := by
  apply List.ext_getElem?
  intro i
  simp only [row, List.getElem?_map, List.getElem?_mapIdx]
  by_cases h : i < args.length
  · simp [h]
  · simp [h]

theorem mem_row {first : Nat} {args : List α} {e : Nat × α} (h : e ∈ row first args) :
    ∃ i, i < args.length ∧ e.1 = first + i := by
  obtain ⟨i, hi, rfl⟩ := List.mem_mapIdx.mp h
  exact ⟨i, hi, rfl⟩

theorem nodup_row (first : Nat) (args : List α) : ((row first args).map Prod.fst).Nodup := by
  rw [slots_row]
  exact List.nodup_range'

theorem proper_row {type : NodeType} {settings : List (String × String)} {first output : Nat}
    {kind : Kind} {args : List α} (count : Nat) (hs : (settings.map Prod.fst).Nodup)
    (hrow : hasRow type first count = true) (h : args.length ≤ count)
    (ho : (type.outputs[output]?).any (·.type.isNumeric) = true) (hk : kind.isNumeric = true)
    (ht : type ≠ .value) : Proper ⟨type, settings, row first args, output, kind⟩ where
  settings := hs
  slots := nodup_row first args
  inputs := by
    intro e he
    obtain ⟨i, hi, he⟩ := mem_row he
    have := List.all_eq_true.mp hrow i (List.mem_range.mpr (Nat.lt_of_lt_of_le hi h))
    rw [he]
    exact (Option.any_eq_true _ _).mp this
  output := (Option.any_eq_true _ _).mp ho
  kind := hk
  type := ht

theorem proper_math (op : String) {args : List α} (h : args.length ≤ 3) : (math op args).Proper :=
  proper_row 3 (by simp) (by decide) h rfl rfl (by decide)

theorem proper_vectorMath (op : String) {args : List α} (h : args.length ≤ 3) :
    (vectorMath op args).Proper :=
  proper_row 3 (by simp) (by decide) h rfl rfl (by decide)

theorem proper_clamp (b : Bool) {args : List α} (h : args.length ≤ 3) : (clamp b args).Proper :=
  proper_row 3 (by simp) (by decide) h rfl rfl (by decide)

theorem proper_combine {args : List α} (h : args.length ≤ 3) : (combine args).Proper :=
  proper_row 3 (by simp) (by decide) h rfl rfl (by decide)

theorem proper_mapRange (isV : α → Bool) (interpolation : String) {args : List α}
    (h : args.length ≤ 6) : (mapRange isV interpolation args).Proper := by
  unfold mapRange
  split <;> exact proper_row 6 (by simp) (by decide) h rfl rfl (by decide)

theorem proper_mix (isV : α → Bool) (factor a b : α) : (mix isV factor a b).Proper := by
  unfold mix
  split
  · split
    · exact ⟨by simp, by simp, by simp [NodeType.inputs, SocketSpec.vector, SocketType.isNumeric,
        SocketType.hasDefault], ⟨_, rfl, rfl⟩, rfl, by simp⟩
    · exact ⟨by simp, by simp, by simp [NodeType.inputs, SocketSpec.vector, SocketSpec.float,
        SocketType.isNumeric, SocketType.hasDefault], ⟨_, rfl, rfl⟩, rfl, by simp⟩
  · exact ⟨by simp, by simp, by simp [NodeType.inputs, SocketSpec.float, SocketType.isNumeric,
      SocketType.hasDefault], ⟨_, rfl, rfl⟩, rfl, by simp⟩

theorem proper_rotation (v axis angle : α) (center : Option α) :
    (rotation v axis angle center).Proper := by
  cases center <;>
  exact ⟨by simp [rotation], by simp [rotation], by simp [rotation, NodeType.inputs,
    SocketSpec.vector, SocketSpec.float, SocketType.isNumeric, SocketType.hasDefault],
    ⟨_, rfl, rfl⟩, rfl, by simp [rotation]⟩

theorem neat_native {isV : α → Bool} {args : List α} {b : Blueprint α}
    (h : native isV f args = some b) : b.Neat := by
  have neat_mix : ∀ factor x y : α, (mix isV factor x y).Neat := fun factor x y => by
    refine ⟨(proper_mix isV factor x y).settings, (proper_mix isV factor x y).slots, ?_⟩
    unfold mix
    split <;> rfl
  unfold native at h
  split at h
  · cases h
    exact neat_mix _ _ _
  · cases h
    exact neat_mix _ _ _
  · cases h
    exact ⟨by simp [clamp], nodup_row _ _, rfl⟩
  · cases h
    exact ⟨by simp [clamp], nodup_row _ _, rfl⟩
  · cases h
    exact ⟨by simp [combine], nodup_row _ _, rfl⟩
  · cases h
    exact ⟨(proper_rotation _ _ _ _).settings, (proper_rotation _ _ _ _).slots, rfl⟩
  · split at h
    · cases h
      unfold mapRange
      split <;> exact ⟨by simp, nodup_row _ _, rfl⟩
    · split at h
      · obtain ⟨op, -, rfl⟩ := Option.map_eq_some_iff.mp h
        exact ⟨by simp [vectorMath], nodup_row _ _, rfl⟩
      · obtain ⟨op, -, rfl⟩ := Option.map_eq_some_iff.mp h
        exact ⟨by simp [math], nodup_row _ _, rfl⟩

theorem Proper.map {b : Blueprint α} (h : b.Proper) (g : α → β) : (b.map g).Proper where
  settings := h.settings
  slots := by
    have : (b.map g).inputs.map Prod.fst = b.inputs.map Prod.fst := by
      simp [Blueprint.map, Function.comp_def]
    rw [this]
    exact h.slots
  inputs := by
    intro e he
    obtain ⟨e', he', rfl⟩ := List.mem_map.mp he
    exact h.inputs e' he'
  output := h.output
  kind := h.kind
  type := h.type

end Blueprint

namespace Function

def composed : Function → Bool
  | nroot | neg | floordiv => true
  | _ => false

theorem length_le {count : Nat} (h : f.signature.fault? count = none)
    (hv : f.signature.variadic = false) : count ≤ f.signature.params.length := by
  unfold Signature.fault? at h
  rw [hv] at h
  refine Nat.le_of_not_lt fun hlt => ?_
  rw [if_neg (by simp), if_pos hlt] at h
  cases h

theorem required_le {count : Nat} (h : f.signature.fault? count = none) :
    f.signature.required ≤ count := by
  unfold Signature.fault? at h
  refine Nat.le_of_not_lt fun hlt => ?_
  rw [if_pos hlt] at h
  split at h
  · cases h
  · split at h <;> cases h

/-- A call that an editor builds neither from other calls nor by components. -/
structure Direct (editor : Editor) (f : Function) (flags : List Bool) : Prop where
  simple : f.composed = false
  offered : f.offeredBy editor = true
  arity : f.signature.fault? flags.length = none
  whole : flags.any id = true → f.allScalar = false ∧ f.splitsIn editor = false

/-- A call that one node of an editor computes. -/
structure Nodal (editor : Editor) (f : Function) (flags : List Bool) : Prop
    extends Direct editor f flags where
  clamps : f = .clamp ∨ f = .clampauto → editor.offers .clamp = true
  pair : f.signature.variadic = true → flags.length = 2

def resultKind (f : Function) (flags : List Bool) : Kind :=
  if f.vectorOnly || flags.any id then .vector else .scalar

theorem params_le (h : f.mathSetting?.isSome ∨ f.vectorSetting?.isSome)
    (hv : f.signature.variadic = false) : f.signature.params.length ≤ 3 := by
  cases f <;> first | decide | simp [mathSetting?, vectorSetting?] at h

theorem plain_cases (f : Function) (h : f.composed = false) : f.interpolation?.isSome = true ∨
    f.interpolation? = none ∧ f.mathSetting?.isSome = true ∨
    (f = .lerp ∨ f = .mix) ∨ (f = .clamp ∨ f = .clampauto) ∨ f = .combixyz ∨ f = .rotaxis := by
  cases f <;> first | (cases h; done) | simp [interpolation?, mathSetting?]

end Function

namespace Blueprint

variable {α : Type} {isV : α → Bool} {editor : Editor} {f : Function} {args : List α}

section Arguments

variable {isV' : α → Bool} {b : Blueprint α}

theorem native_attach (isV : α → Bool) (f : Function) (args : List α) : native isV f args =
    (native (fun a => isV a.1) f args.attach).map (map Subtype.val) := by
  have := native_map Subtype.val isV f args.attach
  rwa [List.attach_map_subtype_val] at this

theorem native_congr (h : ∀ a ∈ args, isV a = isV' a) : native isV f args = native isV' f args := by
  have hcongr : (fun a : { a // a ∈ args } => isV a.1) = fun a => isV' a.1 := by
    funext a
    exact h a.1 a.2
  rw [native_attach, native_attach isV', hcongr]

theorem mem_of_native (h : native isV f args = some b) : ∀ e ∈ b.inputs, e.2 ∈ args := by
  rw [native_attach] at h
  obtain ⟨b', -, rfl⟩ := Option.map_eq_some_iff.mp h
  intro e he
  obtain ⟨e', -, rfl⟩ := List.mem_map.mp he
  exact e'.2.2

theorem lookup_map_snd {β : Type} (g : α → β) (l : List (Nat × α)) (i : Nat) :
    (l.map fun e => (e.1, g e.2)).lookup i = (l.lookup i).map g := by
  induction l with
  | nil => rfl
  | cons e l ih =>
    obtain ⟨j, a⟩ := e
    rw [List.map_cons, List.lookup_cons, List.lookup_cons]
    cases i == j with
    | true => rfl
    | false => exact ih

end Arguments

theorem vectorSetting_of_whole (hm : f.mathSetting?.isSome = true) (hs : f.allScalar = false)
    (hw : f.splitsIn editor = false) :
    f.vectorSetting?.isSome = true ∧ editor.offers .vectorMath = true := by
  cases f <;> cases editor <;> revert hm hs hw <;> decide

/-- What a blueprint of a call that one node computes is like. -/
structure Suits (editor : Editor) (f : Function) (flags : List Bool) (b : Blueprint α) : Prop where
  proper : b.Proper
  offered : editor.offers b.type = true
  kind : b.kind = f.resultKind flags

theorem exists_native_plain (h : f.Nodal editor (args.map isV)) (hi : f.interpolation? = none)
    (hm : f.mathSetting?.isSome = true) (hlen : args.length ≤ 3) (hf : f.vectorOnly = false) :
    ∃ b, plain isV f args = some b ∧ Suits editor f (args.map isV) b := by
  have hany : (args.map isV).any id = args.any isV := List.any_map
  unfold plain
  rw [hi]
  dsimp only
  cases hv : args.any isV with
  | false =>
    obtain ⟨op, hop⟩ := Option.isSome_iff_exists.mp hm
    rw [if_neg (by simp), hop]
    refine ⟨_, rfl, proper_math op hlen, by cases editor <;> rfl, ?_⟩
    rw [Function.resultKind, hany, hv, hf]
    rfl
  | true =>
    obtain ⟨hs, hw⟩ := h.whole (hany.trans hv)
    obtain ⟨hset, hoffers⟩ := vectorSetting_of_whole hm hs hw
    obtain ⟨op, hop⟩ := Option.isSome_iff_exists.mp hset
    rw [if_pos rfl, hop]
    refine ⟨_, rfl, proper_vectorMath op hlen, hoffers, ?_⟩
    rw [Function.resultKind, hany, hv, Bool.or_true]
    rfl

theorem length_le_three (h : f.signature.fault? args.length = none)
    (hpair : f.signature.variadic = true → args.length = 2) (hm : f.mathSetting?.isSome = true) :
    args.length ≤ 3 := by
  cases hv : f.signature.variadic with
  | true =>
    have := hpair hv
    omega
  | false => exact Nat.le_trans (Function.length_le h hv) (Function.params_le (.inl hm) hv)

theorem exists_native (h : f.Nodal editor (args.map isV)) :
    ∃ b, native isV f args = some b ∧ Suits editor f (args.map isV) b := by
  have hany : (args.map isV).any id = args.any isV := List.any_map
  have harity : f.signature.fault? args.length = none := by
    have := h.arity
    rwa [List.length_map] at this
  have hpair : f.signature.variadic = true → args.length = 2 := by
    have := h.pair
    rwa [List.length_map] at this
  have hleast := Function.required_le harity
  rcases f.plain_cases h.simple with hi | ⟨hi, hm⟩ | hmix | hclamp | rfl | rfl
  · obtain ⟨interpolation, hi⟩ := Option.isSome_iff_exists.mp hi
    have hfacts : isSpecial f args.length = false ∧ f.signature.variadic = false ∧
        f.signature.params.length ≤ 6 ∧ f.vectorOnly = false := by
      cases f <;> first | (cases hi; done) | exact ⟨rfl, rfl, by decide, rfl⟩
    obtain ⟨hspecial, hv, hparams, honly⟩ := hfacts
    refine ⟨mapRange isV interpolation args, ?_, proper_mapRange isV interpolation
      (Nat.le_trans (Function.length_le harity hv) hparams), ?_, ?_⟩
    · rw [native_plain hspecial, plain, hi]
    · unfold mapRange
      split <;> cases editor <;> rfl
    · unfold mapRange Function.resultKind
      rw [hany, honly, Bool.false_or]
      split <;> rfl
  · have hfacts : isSpecial f args.length = false ∧ f.vectorOnly = false := by
      cases f <;> first | (cases hm; done) | exact ⟨rfl, rfl⟩
    rw [native_plain hfacts.1]
    exact exists_native_plain h hi hm (length_le_three harity hpair hm) hfacts.2
  · have hthree : args.length = 3 := by
      have hleast' : 3 ≤ args.length := by rcases hmix with rfl | rfl <;> exact hleast
      have : args.length ≤ 3 := by
        rcases hmix with rfl | rfl <;> exact Function.length_le harity rfl
      omega
    match args, hthree with
    | [factor, a, b], _ =>
      refine ⟨mix isV factor a b, by rcases hmix with rfl | rfl <;> rfl, proper_mix isV factor a b,
        ?_, ?_⟩
      · unfold mix
        split <;> cases editor <;> rfl
      · have honly : f.vectorOnly = false := by rcases hmix with rfl | rfl <;> rfl
        unfold mix Function.resultKind
        rw [hany, honly]
        simp only [List.any_cons, List.any_nil, Bool.or_false, Bool.false_or, Bool.or_assoc]
        split <;> rfl
  · have hnone : args.any isV = false := by
      refine Bool.eq_false_iff.mpr fun hv => ?_
      have := (h.whole (hany.trans hv)).2
      rcases hclamp with rfl | rfl <;> cases this
    refine ⟨clamp (f == .clampauto) args, by rcases hclamp with rfl | rfl <;> rfl,
      proper_clamp _ ?_, h.clamps hclamp, ?_⟩
    · rcases hclamp with rfl | rfl <;> exact Function.length_le harity rfl
    · rw [Function.resultKind, hany, hnone]
      rcases hclamp with rfl | rfl <;> rfl
  · exact ⟨combine args, rfl, proper_combine (Function.length_le harity rfl),
      by cases editor <;> rfl, rfl⟩
  · have hleast : 3 ≤ args.length := hleast
    match args, hleast with
    | v :: axis :: angle :: center, _ =>
      refine ⟨_, rfl, proper_rotation v axis angle center.head?, ?_, rfl⟩
      have := h.offered
      cases editor <;> first | rfl | cases this

end Blueprint

namespace Pass

variable {f : Function} {args : List Operand}

def buildBy (f : Function) (tag : String) : Option (Blueprint Operand) → PassM Handle
  | some b => build tag b.plan
  | none => throw (.noConstruction f)

theorem mathNode_eq (tag : String) :
    mathNode f tag args = buildBy f tag (f.mathSetting?.map (Blueprint.math · args)) := by
  unfold mathNode
  cases f.mathSetting? <;> rfl

theorem vectorNode_eq (tag : String) :
    vectorNode f tag args = buildBy f tag (f.vectorSetting?.map (Blueprint.vectorMath · args)) := by
  unfold vectorNode
  cases f.vectorSetting? <;> rfl

theorem mapRangeNode_eq (tag interpolation : String) : mapRangeNode tag interpolation args =
    build tag (Blueprint.mapRange Operand.isVector interpolation args).plan := by
  unfold mapRangeNode Blueprint.mapRange
  split <;> rfl

theorem mixNode_eq (tag : String) (factor a b : Operand) :
    mixNode tag factor a b = build tag (Blueprint.mix Operand.isVector factor a b).plan := by
  unfold mixNode Blueprint.mix
  split <;> rfl

/-- The first layer builds one node by the blueprint, chains apart. -/
theorem native_eq_build (hf : f.signature.variadic = false) (tag : String) :
    native f tag args = buildBy f tag (Blueprint.native Operand.isVector f args) := by
  have plainCase : (match f.interpolation? with
      | some interpolation => mapRangeNode tag interpolation args
      | none => if args.any (·.isVector) then vectorNode f tag args else mathNode f tag args) =
      buildBy f tag (Blueprint.plain Operand.isVector f args) := by
    unfold Blueprint.plain
    cases f.interpolation? with
    | some interpolation => exact mapRangeNode_eq tag interpolation
    | none =>
      dsimp only
      split
      · exact vectorNode_eq tag
      · exact mathNode_eq tag
  cases hs : Blueprint.isSpecial f args.length with
  | false =>
    rw [Blueprint.native_plain hs, ← plainCase]
    cases f with
    | min | max => cases hf
    | lerp | mix =>
      match args, hs with
      | [], _ | [_], _ | [_, _], _ | _ :: _ :: _ :: _ :: _, _ => rfl
    | rotaxis =>
      match args, hs with
      | [], _ | [_], _ | [_, _], _ => rfl
      | _ :: _ :: _ :: _, h => simp [Blueprint.isSpecial] at h
    | clamp | clampauto | combixyz => cases hs
    | _ => rfl
  | true =>
    cases f with
    | lerp | mix =>
      match args, hs with
      | [factor, a, b], _ => exact mixNode_eq tag factor a b
    | clamp | clampauto | combixyz => rfl
    | rotaxis =>
      match args, hs with
      | v :: axis :: angle :: center, _ => rfl
    | _ => cases hs

/-- The first layer chains, or builds the node of a blueprint, or has none. -/
theorem native_cases {T : PassM Handle → Prop} (tag : String)
    (chain : f = .min ∨ f = .max → T (chain f tag args)) (lacking : T (throw (.noConstruction f)))
    (built : ∀ b, Blueprint.native Operand.isVector f args = some b → T (build tag b.plan)) :
    T (native f tag args) := by
  cases hv : f.signature.variadic with
  | true =>
    cases f with
    | min => exact chain (.inl rfl)
    | max => exact chain (.inr rfl)
    | _ => cases hv
  | false =>
    rw [native_eq_build hv]
    cases hb : Blueprint.native Operand.isVector f args with
    | none => exact lacking
    | some b => exact built b hb

end Pass

end FormulaGraph
