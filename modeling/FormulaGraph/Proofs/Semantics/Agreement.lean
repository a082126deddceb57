import FormulaGraph.Proofs.History
import FormulaGraph.Proofs.Semantics.Calls

/-!
One formula has one value in every editor. The value of a term is said without
an editor; what a tree reads at the output after compiling evaluates to it,
under any interpretation that works by components.
-/

namespace FormulaGraph

open Numeric

variable {f : Function} {α : Type}

/-- The value of a term: a number in full precision, or what a socket carries. -/
inductive Amount (α : Type) where
  | number (x : Double)
  | datum (d : Datum α)

namespace Amount

def number? : Amount α → Option Double
  | number x => some x
  | datum _ => none

def isVector : Amount α → Bool
  | number _ => false
  | datum d => d.isVector

def argument (I : Interpretation α) : Amount α → Datum α
  | number x => .number (I.literal x.toSingle)
  | datum d => d

theorem isVector_argument (I : Interpretation α) (a : Amount α) :
    (a.argument I).isVector = a.isVector := by
  cases a <;> rfl

def folded? (f : Function) (amounts : List (Amount α)) : Option Double :=
  if f.folds then (amounts.mapM number?).bind f.fold? else none

theorem resultKind_of_folded? {amounts : List (Amount α)} {x : Double}
    (h : folded? f amounts = some x) : f.resultKind (amounts.map isVector) = .scalar := by
  unfold folded? at h
  split at h
  · next hf =>
    obtain ⟨xs, hxs, -⟩ := Option.bind_eq_some_iff.mp h
    refine Function.resultKind_scalar (Function.not_vectorOnly_of_folds hf) ?_
    rw [List.any_map, List.any_eq_false]
    intro a ha hv
    obtain ⟨y, -, hy⟩ := forall₂_mem_left (forall₂_of_mapM hxs) ha
    cases a with
    | number x => cases hv
    | datum d => cases hy
  · cases h

end Amount

namespace Term

mutual

/-- The value of a term, whatever the editor. -/
def amount (I : Interpretation α) (assigned : String → Datum α) : Term → Amount α
  | constant x => .number x
  | name n => .datum (assigned n)
  | call f args =>
    let amounts := amounts I assigned args
    match Amount.folded? f amounts with
    | some x => .number x
    | none => .datum (I.apply f (amounts.map (·.argument I)))

def amounts (I : Interpretation α) (assigned : String → Datum α) : List Term → List (Amount α)
  | [] => []
  | t :: rest => amount I assigned t :: amounts I assigned rest

end

end Term

namespace Figure

variable {I : Interpretation α} {assigned : String → Datum α} {x : Figure} {a : Amount α}

/-- A lowered term that is worth an amount. -/
inductive Worth (I : Interpretation α) (assigned : String → Datum α) :
    Figure → Amount α → Prop where
  | number {x : Double} : Worth I assigned (.number x) (.number x)
  | value {x : Lowered} {d : Datum α} (worth : x.Worth I assigned d) :
      Worth I assigned (.value x) (.datum d)

theorem Worth.number? (h : x.Worth I assigned a) : x.number? = a.number? := by
  cases h <;> rfl

theorem Worth.argument (law : I.Componentwise) (h : x.Worth I assigned a) (constantNodes : Bool) :
    (x.argument constantNodes).Worth I assigned (a.argument I) := by
  cases h with
  | number =>
    rw [argument_number]
    cases constantNodes with
    | true => exact Lowered.worth_scalar law rfl
    | false => exact Lowered.worth_number _
  | value worth => exact worth

theorem Worth.result (h : x.Worth I assigned a) : x.result.Worth I assigned (a.argument I) := by
  cases h with
  | number =>
    rw [result_number]
    exact Lowered.worth_number _
  | value worth => exact worth

theorem folded?_eq {ws : List (Figure × Amount α)} (h : ∀ w ∈ ws, w.1.Worth I assigned w.2) :
    folded? f (ws.map (·.1)) = Amount.folded? f (ws.map (·.2)) := by
  have hmap : (ws.map (·.1)).mapM number? = (ws.map (·.2)).mapM Amount.number? := by
    induction ws with
    | nil => rfl
    | cons w ws ih =>
      obtain ⟨hw, hws⟩ := List.forall_mem_cons.mp h
      rw [List.map_cons, List.map_cons, List.mapM_cons, List.mapM_cons, hw.number?, ih hws]
  rw [folded?_eq_fold, Amount.folded?, hmap]

end Figure

namespace Function

variable {f : Function} {kinds : List Kind} {kind : Kind}

theorem takesAll_of_kindOn? (h : f.kindOn? kinds = some kind) : f.takesAll kinds = true := by
  unfold kindOn? at h
  split at h
  · assumption
  · cases h

theorem numeric_of_takesAll (h : f.takesAll kinds = true) :
    ∀ kind ∈ kinds, kind.isNumeric = true := by
  intro kind hm
  obtain ⟨i, hi⟩ := List.mem_iff_getElem?.mp hm
  exact (Bool.and_eq_true_iff.mp (takesAll_iff.mp h i kind hi)).1

end Function

namespace Term

variable {kind : Kind} {t : Term} {I : Interpretation α} {assigned : String → Datum α}
  {editor : Editor} {options : Options}

/-- A variable is worth what it is assigned, on whichever socket. -/
theorem worth_ofVariable (editor : Editor) (law : I.Componentwise)
    (ha : I.Assigns options assigned) {n : String} (hn : (options.kindOf n).isNumeric = true) :
    (Lowered.ofVariable editor (options.kindOf n) n).Worth I assigned (assigned n) ∧
      (assigned n).isVector = (options.kindOf n == .vector) := by
  have hassigned := ha n
  cases hkind : options.kindOf n with
  | scalar =>
    rw [hkind] at hassigned
    obtain ⟨x, hx⟩ := hassigned
    have htype : (Kind.scalar.socketType?.bind editor.adjust?).getD .float = .float := by
      cases editor <;> rfl
    rw [Lowered.ofVariable, htype, hx]
    exact ⟨Lowered.worth_scalar law hx, rfl⟩
  | vector =>
    rw [hkind] at hassigned
    obtain ⟨x, y, z, hx⟩ := hassigned
    have htype : (Kind.vector.socketType?.bind editor.adjust?).getD .float = .vector := by
      cases editor <;> rfl
    have hvector : (assigned n).isVector = true := by rw [hx]; rfl
    rw [Lowered.ofVariable, htype]
    exact ⟨Lowered.worth_vector hvector, hvector⟩
  | boolean =>
    rw [hkind] at hassigned
    obtain ⟨x, htruth, hx⟩ := hassigned
    have heval : (Meaning.variable n).eval I assigned = .number x := hx
    rw [Lowered.ofVariable, hx]
    refine ⟨Lowered.worth_boolean htruth heval ?_, rfl⟩
    cases editor <;> first | exact .inl rfl | exact .inr rfl
  | rotation | matrix | output =>
    rw [hkind] at hn
    cases hn

/-- A call on lowered arguments is worth what the function makes of theirs. -/
theorem worth_call (law : I.Componentwise) (constantNodes : Bool) {ws : List (Figure × Amount α)}
    {kinds : List Kind} (ho : f.offeredBy editor = true)
    (harity : f.signature.fault? ws.length = none) (hw : ∀ w ∈ ws, w.1.Worth I assigned w.2)
    (hflags : ws.map (·.2.isVector) = Function.vectorFlags kinds)
    (hk : f.kindOn? kinds = some kind) :
    (Lowered.apply editor f ((ws.map (·.1)).map (·.argument constantNodes))).Worth I assigned
        (I.apply f ((ws.map (·.2)).map (·.argument I))) ∧
      (I.apply f ((ws.map (·.2)).map (·.argument I))).isVector = (kind == .vector) := by
  obtain ⟨zs, hzs⟩ : ∃ zs : List (Lowered × Datum α),
      zs = ws.map fun w => (w.1.argument constantNodes, w.2.argument I) := ⟨_, rfl⟩
  have hfst : (ws.map (·.1)).map (·.argument constantNodes) = zs.map (·.1) := by
    rw [hzs, List.map_map, List.map_map]
    rfl
  have hsnd : (ws.map (·.2)).map (·.argument I) = zs.map (·.2) := by
    rw [hzs, List.map_map, List.map_map]
    rfl
  have hz : ∀ z ∈ zs, z.1.Worth I assigned z.2 := by
    intro z hmem
    rw [hzs] at hmem
    obtain ⟨w, hm, rfl⟩ := List.mem_map.mp hmem
    exact (hw w hm).argument law _
  have hvectors : (zs.map (·.2)).map Datum.isVector = Function.vectorFlags kinds := by
    rw [← hflags, hzs, List.map_map, List.map_map]
    exact List.map_congr_left fun w _ => w.2.isVector_argument I
  have hlen : kinds.length = ws.length := by
    rw [← List.length_map (· == Kind.vector), ← Function.vectorFlags, ← hflags, List.length_map]
  have htakes := Function.takesAll_of_kindOn? hk
  have hcallable : f.Callable editor ((zs.map (·.2)).map Datum.isVector) := by
    rw [hvectors]
    exact Function.callable_of_takesAll ho (by rwa [hlen]) htakes
  have hworth := Lowered.worth_apply law hcallable hz
  rw [hfst, hsnd]
  refine ⟨hworth, ?_⟩
  have hkind : (Lowered.apply editor f (zs.map (·.1))).kind = kind := by
    rw [Lowered.kind_apply (by rw [Lowered.flags_eq hz]; exact hcallable), Lowered.flags_eq hz,
      hvectors]
    rw [Function.kindOn?_eq htakes] at hk
    exact Option.some.inj hk
  rw [← hworth.isVector, Lowered.isVector, hkind]

mutual

/-- Lowered in any editor, a term is worth its value. -/
theorem worth_lower (law : I.Componentwise) (ha : I.Assigns options assigned) {t : Term}
    {kind : Kind} (hw : t.WellMade) (ho : ∀ f ∈ t.calls, f.offeredBy editor = true)
    (hk : t.kind? options = some kind) (hn : kind.isNumeric = true) :
    (t.lower editor options).Worth I assigned (t.amount I assigned) ∧
      (t.amount I assigned).isVector = (kind == .vector) := by
  match t with
  | .constant x =>
    cases hk
    exact ⟨.number, rfl⟩
  | .name n =>
    cases hk
    obtain ⟨hworth, hvector⟩ := worth_ofVariable editor law ha hn
    exact ⟨.value hworth, hvector⟩
  | .call f args =>
    obtain ⟨kinds, hkinds, hk⟩ := Option.bind_eq_some_iff.mp hk
    have hnumeric := Function.numeric_of_takesAll (Function.takesAll_of_kindOn? hk)
    obtain ⟨ws, hfst, hsnd, hws, hflags⟩ := worth_lowerAll law ha hw.2
      (fun g hg => ho g (List.mem_cons_of_mem _ hg)) hkinds hnumeric
    have hlen : ws.length = args.length := by
      rw [← Pass.length_lowerAll editor options args, ← hfst, List.length_map]
    have hcall := worth_call law options.constantNodes (ho f List.mem_cons_self)
      (by rw [hlen]; exact hw.1) hws hflags hk
    unfold lower amount
    dsimp only
    rw [← hfst, ← hsnd, Figure.folded?_eq hws]
    cases hfold : Amount.folded? f (ws.map (·.2)) with
    | none => exact ⟨.value hcall.1, hcall.2⟩
    | some x =>
      rw [Function.kindOn?_eq (Function.takesAll_of_kindOn? hk), ← hflags] at hk
      have hscalar := Amount.resultKind_of_folded? hfold
      rw [List.map_map] at hscalar
      rw [← Option.some.inj hk]
      exact ⟨.number, (congrArg (· == Kind.vector) hscalar).symm⟩

theorem worth_lowerAll (law : I.Componentwise) (ha : I.Assigns options assigned) {ts : List Term}
    {kinds : List Kind} (hw : WellMadeAll ts) (ho : ∀ f ∈ callsAll ts, f.offeredBy editor = true)
    (hk : kinds? options ts = some kinds) (hn : ∀ kind ∈ kinds, kind.isNumeric = true) :
    ∃ ws : List (Figure × Amount α), ws.map (·.1) = lowerAll editor options ts ∧
      ws.map (·.2) = amounts I assigned ts ∧ (∀ w ∈ ws, w.1.Worth I assigned w.2) ∧
      ws.map (·.2.isVector) = Function.vectorFlags kinds := by
  match ts with
  | [] =>
    cases hk
    exact ⟨[], rfl, rfl, by simp, rfl⟩
  | t :: rest =>
    obtain ⟨kind, hkind, hk⟩ := Option.bind_eq_some_iff.mp hk
    obtain ⟨kinds', hkinds, rfl⟩ := Option.map_eq_some_iff.mp hk
    rw [List.forall_mem_cons] at hn
    obtain ⟨hfirst, hvector⟩ := worth_lower law ha hw.1
      (fun f hf => ho f (List.mem_append_left _ hf)) hkind hn.1
    obtain ⟨ws, hfst, hsnd, hws, hflags⟩ := worth_lowerAll law ha hw.2
      (fun f hf => ho f (List.mem_append_right _ hf)) hkinds hn.2
    refine ⟨(t.lower editor options, t.amount I assigned) :: ws, ?_, ?_,
      List.forall_mem_cons.mpr ⟨hfirst, hws⟩, ?_⟩
    · rw [List.map_cons, hfst, lowerAll]
    · rw [List.map_cons, hsnd, amounts]
    · rw [List.map_cons, hflags, hvector]
      rfl

end

theorem outputType_of_numeric {dialect : Dialect} (h : kind.isNumeric = true) :
    outputType editor dialect kind =
      if kind == .vector || dialect.hasVectors then .vector else .float := by
  cases editor <;> cases dialect <;> cases kind <;> first | rfl | cases h

/-- What the output of a formula is, whatever the editor. -/
def value (I : Interpretation α) (assigned : String → Datum α) (dialect : Dialect) (t : Term) :
    Datum α :=
  let d := (t.amount I assigned).argument I
  d.into I (if d.isVector || dialect.hasVectors then .vector else .float)

theorem eval_meaning (law : I.Componentwise) (ha : I.Assigns options assigned) (hw : t.WellMade)
    (ho : ∀ f ∈ t.calls, f.offeredBy editor = true) (hk : t.kind? options = some kind)
    (hn : kind.isNumeric = true) :
    (t.meaning editor options).eval I assigned = t.value I assigned options.dialect := by
  have hworth := (worth_lower law ha hw ho hk hn).1.result
  unfold meaning value
  dsimp only
  rw [outputType_of_numeric hworth.numeric, ← hworth.isVector]
  refine hworth.feeding ?_
  split
  · exact .inr rfl
  · exact .inl rfl

theorem exists_name_of_not_numeric (hk : t.kind? options = some kind)
    (hn : kind.isNumeric = false) :
    ∃ n, t = name n := by
  cases t with
  | name n => exact ⟨n, rfl⟩
  | constant x =>
    cases hk
    cases hn
  | call f args =>
    obtain ⟨kinds, -, hk⟩ := Option.bind_eq_some_iff.mp hk
    rw [Function.kindOn?_eq (Function.takesAll_of_kindOn? hk)] at hk
    rw [← Option.some.inj hk, Function.isNumeric_resultKind] at hn
    cases hn

theorem meaning_name {n : String} (hn : (options.kindOf n).isNumeric = false) (editor' : Editor) :
    (name n).meaning editor options = (name n).meaning editor' options := by
  unfold meaning lower Figure.result Lowered.ofVariable Lowered.kind
  dsimp only
  generalize options.kindOf n = kind at hn ⊢
  generalize options.dialect = dialect
  cases kind with
  | scalar | vector | boolean => cases hn
  | rotation | matrix | output => cases dialect <;> cases editor <;> cases editor' <;> rfl

/-- A term has one value in all editors that can build it. -/
theorem eval_meaning_eq (law : I.Componentwise) (ha : I.Assigns options assigned) (hw : t.WellMade)
    (hk : t.kind? options = some kind) {editor' : Editor}
    (ho : ∀ f ∈ t.calls, f.offeredBy editor = true)
    (ho' : ∀ f ∈ t.calls, f.offeredBy editor' = true) :
    (t.meaning editor options).eval I assigned = (t.meaning editor' options).eval I assigned := by
  cases hn : kind.isNumeric with
  | true => rw [eval_meaning law ha hw ho hk hn, eval_meaning law ha hw ho' hk hn]
  | false =>
    obtain ⟨n, rfl⟩ := exists_name_of_not_numeric hk hn
    cases hk
    rw [meaning_name hn editor']

end Term

namespace Tree

variable {I : Interpretation α} {assigned : String → Datum α} {t t' : Tree} {text : String}
  {options : Options}

/-- The value that is read at the output of a name. -/
def Yields (I : Interpretation α) (assigned : String → Datum α) (t : Tree) (name : String)
    (d : Datum α) : Prop :=
  ∃ m, t.ReadsOutput name m ∧ m.eval I assigned = d

theorem yields_iff {name : String} {m : Meaning} (h : ∀ n, t.ReadsOutput name n ↔ n = m)
    (d : Datum α) : t.Yields I assigned name d ↔ d = m.eval I assigned := by
  constructor
  · rintro ⟨n, hn, rfl⟩
    rw [(h n).mp hn]
  · rintro rfl
    exact ⟨m, (h m).mpr rfl, rfl⟩

/-- One text compiled in two trees, of whatever editors and history, yields one
value at their outputs: what an editor lacks is emulated faithfully. -/
theorem compile_yields_same {t₁ t₂ t₁' t₂' : Tree} {report₁ report₂ : Report}
    (law : I.Componentwise) (ha : I.Assigns options assigned) (h₁ : Compiled t₁) (h₂ : Compiled t₂)
    (hc₁ : compile text options t₁ = (.ok report₁, t₁'))
    (hc₂ : compile text options t₂ = (.ok report₂, t₂')) :
    ∃ d, (∀ x, t₁'.Yields I assigned options.outputName x ↔ x = d) ∧
      ∀ x, t₂'.Yields I assigned options.outputName x ↔ x = d := by
  obtain ⟨plain, term, hread, ho₁, hk, hreads₁⟩ := compile_built h₁ hc₁
  obtain ⟨plain', term', hread', ho₂, -, hreads₂⟩ := compile_built h₂ hc₂
  rw [hread] at hread'
  cases hread'
  obtain ⟨kind, hk⟩ := Option.isSome_iff_exists.mp hk
  refine ⟨(term.meaning t₁.editor options).eval I assigned, yields_iff hreads₁, ?_⟩
  rw [Term.eval_meaning_eq law ha (Typed.wellMade_of_read hread) hk ho₁ ho₂]
  exact yields_iff hreads₂

open Interpretation in
theorem compile_yields_same_clamped :
    ∃ options, options = (Options.declare { dialect := .vector } "v" .vector).declare "b" .boolean ∧
      integers.Componentwise ∧ integers.Assigns options (ofKinds options) ∧
      ∃ r₁ t₁ r₂ t₂, compile "clamp(v)*b+[a,2,a]" options (empty .geometry) = (.ok r₁, t₁) ∧
        compile "clamp(v)*b+[a,2,a]" options (empty .compositor) = (.ok r₂, t₂) ∧
        r₁.nodeCount = 10 ∧ r₂.nodeCount = 27 ∧
        ∃ d, (∀ x, t₁.Yields integers (ofKinds options) options.outputName x ↔ x = d) ∧
          ∀ x, t₂.Yields integers (ofKinds options) options.outputName x ↔ x = d := by
  have h₁ : (compile "clamp(v)*b+[a,2,a]"
      ((Options.declare { dialect := .vector } "v" .vector).declare "b" .boolean)
      (empty .geometry)).1 = .ok ⟨10, 10, 0, .vector⟩ := by decide +kernel
  have h₂ : (compile "clamp(v)*b+[a,2,a]"
      ((Options.declare { dialect := .vector } "v" .vector).declare "b" .boolean)
      (empty .compositor)).1 = .ok ⟨27, 27, 0, .vector⟩ := by decide +kernel
  have hc₁ := Run.eq_of_fst h₁
  have hc₂ := Run.eq_of_fst h₂
  exact ⟨_, rfl, componentwise_integers, assigns_ofKinds _, _, _, _, _, hc₁, hc₂, rfl, rfl,
    compile_yields_same componentwise_integers (assigns_ofKinds _) (.empty .geometry)
      (.empty .compositor) hc₁ hc₂⟩

end Tree

end FormulaGraph
