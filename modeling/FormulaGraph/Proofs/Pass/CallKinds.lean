import FormulaGraph.Proofs.Pass.Blueprints
import Mathlib.Data.List.Basic

/-!
The kinds of lowered calls. A call is a vector if its function only gives
vectors or if some argument is one, however it is built. The kind of a term
follows from the kinds of its variables, and the checks of a pass agree with it.
-/

namespace FormulaGraph

open Numeric

theorem Signature.length_of_fixed {params : List String} {received : Nat}
    (h : (fixed params).fault? received = none) : received = params.length := by
  unfold fault? fixed at h
  simp only [Bool.false_eq_true, if_false] at h
  split at h
  · cases h
  · split at h
    · cases h
    · omega

namespace Function

/-- A call that passes the checks of a pass, told by which arguments are
vectors. -/
structure Callable (editor : Editor) (f : Function) (flags : List Bool) : Prop where
  offered : f.offeredBy editor = true
  arity : f.signature.fault? flags.length = none
  vectors : ∀ i, flags[i]? = some true → f.allScalar = false ∧ f.scalarPlaces.contains i = false

variable {editor : Editor} {f : Function} {flags : List Bool}

theorem Callable.not_allScalar (h : Callable editor f flags) (hv : flags.any id = true) :
    f.allScalar = false := by
  obtain ⟨b, hb, hid⟩ := List.any_eq_true.mp hv
  obtain ⟨i, hi⟩ := List.mem_iff_getElem?.mp hb
  cases b with
  | true => exact (h.vectors i hi).1
  | false => cases hid

theorem Callable.direct (h : Callable editor f flags) (hs : f.composed = false)
    (hw : (f.splitsIn editor && flags.any id) = false) : Direct editor f flags where
  simple := hs
  offered := h.offered
  arity := h.arity
  whole := by
    intro hv
    rw [hv, Bool.and_true] at hw
    exact ⟨h.not_allScalar hv, hw⟩

theorem Callable.direct_of_scalars (h : Callable editor f flags) (hs : f.composed = false)
    {flags' : List Bool} (hlen : flags'.length = flags.length) (hv : flags'.any id = false) :
    Direct editor f flags' where
  simple := hs
  offered := h.offered
  arity := by rw [hlen]; exact h.arity
  whole := by rw [hv]; simp

theorem variadic_iff : f.signature.variadic = true ↔ f = .min ∨ f = .max := by
  cases f <;> decide

theorem Direct.nodal (h : Direct editor f flags) (hv : f.signature.variadic = false)
    (hc : f = .clamp ∨ f = .clampauto → editor.offers .clamp = true) : Nodal editor f flags :=
  { h with
    clamps := hc
    pair := by rw [hv]; simp }

theorem nodal_pair (hf : f = .min ∨ f = .max) (editor : Editor) :
    Nodal editor f [false, false] := by
  rcases hf with rfl | rfl <;>
    exact ⟨⟨rfl, rfl, rfl, by simp⟩, by simp, fun _ => rfl⟩

theorem nodal_combine (editor : Editor) : Nodal editor .combixyz [false, false, false] :=
  ⟨⟨rfl, rfl, rfl, by simp⟩, by simp, by simp [signature, Signature.fixed]⟩

theorem Direct.no_vectors (h : Direct editor f flags) (hf : f.allScalar = true) :
    flags.any id = false := by
  refine Bool.eq_false_iff.mpr fun hv => ?_
  rw [(h.whole hv).1] at hf
  cases hf

theorem callable_of_free (ho : f.offeredBy editor = true)
    (ha : f.signature.fault? flags.length = none) (hf : f.allScalar = false)
    (hp : f.scalarPlaces = []) : Callable editor f flags where
  offered := ho
  arity := ha
  vectors := by
    intro i _
    rw [hp]
    exact ⟨hf, rfl⟩

theorem resultKind_scalar (h : f.vectorOnly = false) (hv : flags.any id = false) :
    f.resultKind flags = .scalar := by
  rw [resultKind, h, hv]
  rfl

end Function

namespace Lowered

variable {editor : Editor} {f : Function} {xs : List Lowered}

@[simp] theorem isVector_number (x : Numeric.Single) : (number x).isVector = false := rfl

theorem any_flags (xs : List Lowered) : (xs.map isVector).any id = xs.any isVector := List.any_map

theorem apply_of_simple (hf : f.composed = false) :
    apply editor f xs = numericForm editor f xs := by
  cases f <;> first | rfl | cases hf

theorem numericForm_of_direct (h : f.Direct editor (xs.map isVector)) :
    numericForm editor f xs = scalarForm editor f xs := by
  rw [numericForm_eq, if_neg]
  intro hc
  obtain ⟨hs, hv⟩ := Bool.and_eq_true_iff.mp hc
  rw [(h.whole ((any_flags xs).trans hv)).2] at hs
  cases hs

def emulates (editor : Editor) (f : Function) : Bool :=
  (f == .clamp || f == .clampauto) && !editor.offers .clamp

theorem emulates_iff : emulates editor f = true ↔
    (f = .clamp ∨ f = .clampauto) ∧ editor.offers .clamp = false := by
  simp [emulates]

theorem scalarForm_of_not (h : emulates editor f = false) :
    scalarForm editor f xs = native f xs := by
  cases f with
  | clamp | clampauto =>
    have ho : editor.offers .clamp = true := by
      cases ho : editor.offers .clamp with
      | true => rfl
      | false =>
        rw [emulates_iff.mpr ⟨by simp, ho⟩] at h
        cases h
    cases xs with
    | nil => rfl
    | cons v bounds => exact if_pos ho
  | _ => rfl

theorem native_of_variadic (h : f.signature.variadic = false) : native f xs = single f xs := by
  cases f <;> first | rfl | cases h

theorem kind_single (h : f.Nodal editor (xs.map isVector)) :
    (single f xs).kind = f.resultKind (xs.map isVector) := by
  obtain ⟨b, hb, hsuits⟩ := Blueprint.exists_native h
  rw [single, hb]
  exact hsuits.kind

theorem flags_pair {x y : Lowered} (hx : x.kind ≠ .vector) (hy : y.kind ≠ .vector) :
    [x, y].map isVector = [false, false] := by
  simp [isVector, hx, hy]

theorem kind_pair (hf : f = .min ∨ f = .max) {x y : Lowered} (hx : x.kind ≠ .vector)
    (hy : y.kind ≠ .vector) : (single f [x, y]).kind = .scalar := by
  have hnodal : f.Nodal .geometry ([x, y].map isVector) := by
    rw [flags_pair hx hy]
    exact Function.nodal_pair hf _
  rw [kind_single hnodal, flags_pair hx hy]
  rcases hf with rfl | rfl <;> rfl

theorem kind_chain (hf : f = .min ∨ f = .max) {first y : Lowered} {rest : List Lowered}
    (hfirst : first.kind ≠ .vector) (hrest : ∀ x ∈ y :: rest, x.kind ≠ .vector) :
    (chain f (first :: y :: rest)).kind = .scalar := by
  induction rest generalizing first y with
  | nil => exact kind_pair hf hfirst (hrest y List.mem_cons_self)
  | cons z rest ih =>
    have hstep := kind_pair hf hfirst (hrest y List.mem_cons_self)
    show (chain f (single f [first, y] :: z :: rest)).kind = .scalar
    exact ih (by rw [hstep]; simp) fun x hx => hrest x (List.mem_cons_of_mem _ hx)

theorem kind_emulatedClamp {v low high : Lowered} (hv : v.kind ≠ .vector) (hl : low.kind ≠ .vector)
    (hh : high.kind ≠ .vector) : (emulatedClamp f v low high).kind = .scalar := by
  have pair : ∀ {f : Function} {x y : Lowered}, f = .min ∨ f = .max → x.kind ≠ .vector →
      y.kind ≠ .vector → (native f [x, y]).kind = .scalar := by
    intro f x y hf hx hy
    have hpair := kind_pair hf hx hy
    rcases hf with rfl | rfl <;> exact hpair
  have scalar : ∀ {x : Lowered}, x.kind = .scalar → x.kind ≠ .vector := fun h => by rw [h]; simp
  unfold emulatedClamp
  split
  · exact pair (.inr rfl) (scalar (pair (.inl rfl) hl hh))
      (scalar (pair (.inl rfl) hv (scalar (pair (.inr rfl) hl hh))))
  · exact pair (.inr rfl) hl (scalar (pair (.inl rfl) hv hh))

theorem ne_vector_of_flags (h : (xs.map isVector).any id = false) : ∀ x ∈ xs, x.kind ≠ .vector := by
  intro x hx hc
  rw [any_flags] at h
  have := List.any_eq_false.mp h x hx
  exact this (by simp [isVector, hc])

theorem scalarForm_of_emulates (h : emulates editor f = true) (v : Lowered)
    (bounds : List Lowered) :
    scalarForm editor f (v :: bounds) =
      emulatedClamp f v (bounds[0]?.getD (number 0)) (bounds[1]?.getD (number 1)) := by
  obtain ⟨hf, ho⟩ := emulates_iff.mp h
  have ho : ¬editor.offers .clamp = true := by simp [ho]
  rcases hf with rfl | rfl <;> exact if_neg ho

theorem bound_ne_vector {bounds : List Lowered} (h : ∀ x ∈ bounds, x.kind ≠ .vector) (i : Nat)
    (default : Numeric.Single) : (bounds[i]?.getD (number default)).kind ≠ .vector := by
  cases hi : bounds[i]? with
  | none => simp [kind]
  | some x => exact h x (List.mem_of_getElem? hi)

theorem kind_scalarForm (h : f.Direct editor (xs.map isVector)) :
    (scalarForm editor f xs).kind = f.resultKind (xs.map isVector) := by
  have harity := h.arity
  rw [List.length_map] at harity
  cases he : emulates editor f with
  | true =>
    obtain ⟨hf, -⟩ := emulates_iff.mp he
    have hnone : (xs.map isVector).any id = false := by
      refine Bool.eq_false_iff.mpr fun hv => ?_
      have := (h.whole hv).2
      rcases hf with rfl | rfl <;> cases this
    rw [Function.resultKind_scalar (by rcases hf with rfl | rfl <;> rfl) hnone]
    have hs := ne_vector_of_flags hnone
    cases xs with
    | nil => rcases hf with rfl | rfl <;> cases harity
    | cons v bounds =>
      have hb : ∀ x ∈ bounds, x.kind ≠ .vector := fun x hx => hs x (List.mem_cons_of_mem _ hx)
      rw [scalarForm_of_emulates he]
      exact kind_emulatedClamp (hs v List.mem_cons_self) (bound_ne_vector hb 0 _)
        (bound_ne_vector hb 1 _)
  | false =>
    rw [scalarForm_of_not he]
    cases hv : f.signature.variadic with
    | true =>
      have hf := Function.variadic_iff.mp hv
      have hnone := h.no_vectors (by rcases hf with rfl | rfl <;> rfl)
      have hs := ne_vector_of_flags hnone
      rw [Function.resultKind_scalar (by rcases hf with rfl | rfl <;> rfl) hnone]
      match xs, harity with
      | [], harity | [_], harity => rcases hf with rfl | rfl <;> cases harity
      | first :: y :: rest, _ =>
        have hchain := kind_chain hf (hs first List.mem_cons_self)
          fun x hx => hs x (List.mem_cons_of_mem _ hx)
        rcases hf with rfl | rfl <;> exact hchain
    | false =>
      rw [native_of_variadic hv]
      refine kind_single (h.nodal hv fun hc => ?_)
      cases ho : editor.offers .clamp with
      | true => rfl
      | false =>
        rw [emulates_iff.mpr ⟨hc, ho⟩] at he
        cases he

theorem kind_numericForm (h : f.Callable editor (xs.map isVector)) (hs : f.composed = false) :
    (numericForm editor f xs).kind = f.resultKind (xs.map isVector) := by
  cases hw : f.splitsIn editor && (xs.map isVector).any id with
  | true =>
    have hsplit : f.splitsIn editor && xs.any isVector := by rw [← any_flags]; exact hw
    rw [numericForm_eq, if_pos hsplit, Function.resultKind, (Bool.and_eq_true_iff.mp hw).2,
      Bool.or_true]
    rfl
  | false =>
    have hd := h.direct hs hw
    rw [numericForm_of_direct hd]
    exact kind_scalarForm hd

/-- The kind of a call follows from which arguments are vectors. -/
theorem kind_apply (h : f.Callable editor (xs.map isVector)) :
    (apply editor f xs).kind = f.resultKind (xs.map isVector) := by
  have harity := h.arity
  rw [List.length_map] at harity
  cases hs : f.composed with
  | false =>
    rw [apply_of_simple hs]
    exact kind_numericForm h hs
  | true =>
    have free : ∀ {g : Function} {ys : List Lowered}, g = .div ∨ g = .pow ∨ g = .sub ∨ g = .floor →
        g.signature.fault? ys.length = none →
        (numericForm editor g ys).kind = g.resultKind (ys.map isVector) := by
      intro g ys hg ha
      rw [← List.length_map (f := isVector)] at ha
      refine kind_numericForm (Function.callable_of_free ?_ ha ?_ ?_) ?_ <;>
        rcases hg with rfl | rfl | rfl | rfl <;> rfl
    have vector_iff : ∀ x : Lowered, x.isVector = (x.kind == .vector) := fun _ => rfl
    cases f with
    | nroot =>
      obtain ⟨a, n, rfl⟩ := List.length_eq_two.mp (Signature.length_of_fixed harity)
      have hn : n.isVector = false := by
        cases hn : n.isVector with
        | false => rfl
        | true => cases (h.vectors 1 (by simp [hn])).2
      have hdiv : (numericForm editor .div [number 1, n]).isVector = false := by
        rw [vector_iff, free (.inl rfl) rfl]
        simp [Function.resultKind, Function.vectorOnly, hn]
      show (numericForm editor .pow [a, _]).kind = _
      rw [free (.inr (.inl rfl)) rfl]
      simp [Function.resultKind, Function.vectorOnly, hn, hdiv]
    | neg =>
      obtain ⟨a, rfl⟩ := List.length_eq_one_iff.mp (Signature.length_of_fixed harity)
      show (numericForm editor .sub [number 0, a]).kind = _
      rw [free (.inr (.inr (.inl rfl))) rfl]
      simp [Function.resultKind, Function.vectorOnly]
    | floordiv =>
      have hdiv := free (.inl rfl) harity
      show (numericForm editor .floor [numericForm editor .div xs]).kind = _
      rw [free (.inr (.inr (.inr rfl))) rfl, List.map_cons, vector_iff, hdiv]
      cases hany : (xs.map isVector).any id <;>
        simp [Function.resultKind, Function.vectorOnly, hany]
    | _ => cases hs

end Lowered

namespace Function

def takes (f : Function) (place : Nat) (kind : Kind) : Bool :=
  kind.isNumeric && !(kind == .vector && (f.allScalar || f.scalarPlaces.contains place))

def takesAll (f : Function) (kinds : List Kind) : Bool := (kinds.mapIdx f.takes).all id

def kindOn? (f : Function) (kinds : List Kind) : Option Kind :=
  if f.takesAll kinds then
    some (if f.vectorOnly || kinds.contains .vector then .vector else .scalar)
  else none

variable {f : Function} {kinds : List Kind}

theorem takesAll_iff : f.takesAll kinds = true ↔
    ∀ i kind, kinds[i]? = some kind → f.takes i kind = true := by
  unfold takesAll
  rw [List.all_eq_true]
  constructor
  · intro h i kind hi
    refine h _ (List.mem_mapIdx.mpr ?_)
    obtain ⟨hlt, rfl⟩ := List.getElem?_eq_some_iff.mp hi
    exact ⟨i, hlt, rfl⟩
  · intro h b hb
    obtain ⟨i, hi, rfl⟩ := List.mem_mapIdx.mp hb
    exact h i _ (List.getElem?_eq_getElem hi)

theorem takesAll_of_scalars (h : ∀ kind ∈ kinds, kind = .scalar) : f.takesAll kinds = true := by
  rw [takesAll_iff]
  intro i kind hi
  rw [h kind (List.mem_of_getElem? hi)]
  rfl

def vectorFlags (kinds : List Kind) : List Bool := kinds.map (· == .vector)

theorem any_vectorFlags (kinds : List Kind) :
    (vectorFlags kinds).any id = kinds.contains .vector := by
  rw [vectorFlags, List.any_map, Bool.eq_iff_iff, List.any_eq_true, List.contains_iff_mem]
  constructor
  · rintro ⟨kind, hk, heq⟩
    have : kind = .vector := by simpa using heq
    exact this ▸ hk
  · intro hk
    exact ⟨_, hk, rfl⟩

theorem kindOn?_eq (h : f.takesAll kinds = true) :
    f.kindOn? kinds = some (f.resultKind (vectorFlags kinds)) := by
  rw [kindOn?, if_pos h, resultKind, any_vectorFlags]

theorem callable_of_takesAll {editor : Editor} (ho : f.offeredBy editor = true)
    (ha : f.signature.fault? kinds.length = none) (h : f.takesAll kinds = true) :
    f.Callable editor (vectorFlags kinds) where
  offered := ho
  arity := by rwa [vectorFlags, List.length_map]
  vectors := by
    intro i hi
    rw [vectorFlags, List.getElem?_map] at hi
    obtain ⟨kind, hk, heq⟩ := Option.map_eq_some_iff.mp hi
    have := takesAll_iff.mp h i kind hk
    have hvector : kind = .vector := by simpa using heq
    rw [hvector] at this
    simpa [takes] using (Bool.and_eq_true_iff.mp this).2

end Function

namespace Term

mutual

/-- The kind of a term, if every call takes the kinds of its arguments. -/
def kind? (options : Options) : Term → Option Kind
  | constant _ => some .scalar
  | name n => some (options.kindOf n)
  | call f args => (kinds? options args).bind f.kindOn?

def kinds? (options : Options) : List Term → Option (List Kind)
  | [] => some []
  | t :: rest => (kind? options t).bind fun kind => (kinds? options rest).map (kind :: ·)

end

end Term

namespace Pass

variable {f : Function} {args : List Operand}

theorem kind_at (args : List Operand) (i : Nat) :
    (args.map (·.kind))[i]? = (args[i]?).map (·.kind) :=
  List.getElem?_map

theorem vectorMisfit?_eq_none_iff : vectorMisfit? f args = none ↔
    ∀ i arg, args[i]? = some arg → arg.isVector = true →
      (f.allScalar || f.scalarPlaces.contains i) = false := by
  unfold vectorMisfit?
  rw [List.find?_eq_none]
  constructor
  · intro h i arg hi hv
    have hlt : i < args.length := (List.getElem?_eq_some_iff.mp hi).1
    have := h i (List.mem_range.mpr hlt)
    rw [hi, Option.any_some, hv, Bool.and_true] at this
    exact Bool.eq_false_iff.mpr this
  · intro h i hi hc
    obtain ⟨hplace, hany⟩ := Bool.and_eq_true_iff.mp hc
    obtain ⟨arg, harg, hv⟩ := (Option.any_eq_true _ _).mp hany
    rw [h i arg harg hv] at hplace
    cases hplace

/-- The check of kinds passes if and only if the parameters take them. -/
theorem kindFault?_eq_none_iff :
    kindFault? f args = none ↔ f.takesAll (args.map (·.kind)) = true := by
  rw [Function.takesAll_iff]
  unfold kindFault?
  constructor
  · intro h i kind hi
    rw [kind_at] at hi
    obtain ⟨arg, harg, rfl⟩ := Option.map_eq_some_iff.mp hi
    split at h
    · cases h
    · next hnumeric =>
      rw [Option.map_eq_none_iff, vectorMisfit?_eq_none_iff] at h
      have hnum : arg.kind.isNumeric = true := by
        refine Bool.not_eq_false _ |>.mp fun hc => hnumeric ?_
        exact List.any_eq_true.mpr ⟨arg, List.mem_of_getElem? harg, by rw [hc]; rfl⟩
      rw [Function.takes, hnum, Bool.true_and, Bool.not_eq_true']
      cases hv : arg.isVector with
      | false => rw [show (arg.kind == .vector) = false from hv, Bool.false_and]
      | true => rw [h i arg harg hv, Bool.and_false]
  · intro h
    have take : ∀ i arg, args[i]? = some arg → f.takes i arg.kind = true := by
      intro i arg harg
      refine h i arg.kind ?_
      rw [kind_at, harg]
      rfl
    rw [if_neg, Option.map_eq_none_iff, vectorMisfit?_eq_none_iff]
    · intro i arg harg hv
      have := (Bool.and_eq_true_iff.mp (take i arg harg)).2
      rw [show (arg.kind == .vector) = true from hv, Bool.true_and, Bool.not_eq_true'] at this
      exact this
    · intro hc
      obtain ⟨arg, hmem, hnum⟩ := List.any_eq_true.mp hc
      obtain ⟨i, hi⟩ := List.mem_iff_getElem?.mp hmem
      rw [(Bool.and_eq_true_iff.mp (take i arg hi)).1] at hnum
      cases hnum

theorem faultClass_kindFault? {fault : Fault} (h : kindFault? f args = some fault) :
    fault.faultClass = .type := by
  unfold kindFault? at h
  split at h
  · cases h
    rfl
  · obtain ⟨i, -, rfl⟩ := Option.map_eq_some_iff.mp h
    rfl

end Pass

end FormulaGraph
