import FormulaGraph.Proofs.Pass.Components
import FormulaGraph.Proofs.Typed

/-!
Evaluating a term in a pass. It gives a value that stands for the lowered term,
unless a call does not take the kinds of its arguments or a variable is unknown.
-/

namespace FormulaGraph

open Run Numeric

namespace Function

variable {f : Function}

theorem isSome_fold? {xs : List Double} (hf : f.folds = true)
    (ha : f.signature.fault? xs.length = none) : (f.fold? xs).isSome = true := by
  match xs with
  | [] => cases f <;> first | (cases hf; done) | cases ha
  | [x] => cases f <;> first | rfl | (cases hf; done) | cases ha
  | x :: y :: rest => cases f <;> first | rfl | cases hf

theorem not_vectorOnly_of_folds (hf : f.folds = true) : f.vectorOnly = false := by
  cases f <;> first | rfl | cases hf

end Function

namespace Figure

def kind : Figure → Kind
  | number _ => .scalar
  | value x => x.kind

theorem kind_argument (constantNodes : Bool) (x : Figure) :
    (x.argument constantNodes).kind = x.kind := by
  cases x with
  | number x => cases constantNodes <;> rfl
  | value x => rfl

theorem kind_result (x : Figure) : x.result.kind = x.kind := by
  cases x <;> rfl

/-- Numbers alone fold, if there are as many as the function has parameters. -/
theorem isSome_folded? {f : Function} {figures : List Figure} (hf : f.folds = true)
    (ha : f.signature.fault? figures.length = none) (h : ∀ x ∈ figures, ∃ y, x = .number y) :
    (folded? f figures).isSome = true := by
  have hmap : ∃ ys : List Double, figures.mapM number? = some ys ∧ ys.length = figures.length := by
    clear ha
    induction figures with
    | nil => exact ⟨[], rfl, rfl⟩
    | cons x rest ih =>
      rw [List.forall_mem_cons] at h
      obtain ⟨y, rfl⟩ := h.1
      obtain ⟨ys, hys, hlen⟩ := ih h.2
      refine ⟨y :: ys, ?_, by rw [List.length_cons, hlen, List.length_cons]⟩
      rw [List.mapM_cons, hys]
      rfl
  obtain ⟨ys, hys, hlen⟩ := hmap
  rw [folded?_eq_fold, if_pos hf, hys, Option.bind_some]
  exact Function.isSome_fold? hf (by rwa [hlen])

end Figure

namespace Pass

variable {vs : List (TermValue × Figure)} {constantNodes : Bool} {α β : Type} {roster : List Handle}
  {p p' : Pass}
  {v : TermValue} {f : Function} {zs : List (Operand × Lowered)} {inputs : Inputs}

/-- A step that succeeds with a postcondition or fails with some fault, and
leaves an orderly pass in either case. -/
def Ends (roster : List Handle) (m : PassM α) (p : Pass) (Q : α → Pass → Prop) (E : Fault → Prop) :
    Prop :=
  ∃ r p', m p = (r, p') ∧ p'.Orderly roster ∧ Extends p p' ∧
    match r with
    | .ok a => Q a p'
    | .error e => E e

namespace Ends

variable {m : PassM α} {f : α → PassM β} {Q : α → Pass → Prop} {S : β → Pass → Prop}
  {E E' : Fault → Prop}

theorem of_gives (h : Gives roster m p Q) : Ends roster m p Q E := by
  obtain ⟨a, p', hm, hp', hg, hq⟩ := h
  exact ⟨.ok a, p', hm, hp', hg, hq⟩

theorem throw (hp : p.Orderly roster) {e : Fault} (h : E e) :
    Ends roster (MonadExcept.throw e) p Q E := ⟨.error e, p, rfl, hp, .refl, h⟩

theorem bind (hm : Ends roster m p Q E) (hE : ∀ e, E e → E' e)
    (hf : ∀ a p', p'.Orderly roster → Grows p p' → Q a p' → Ends roster (f a) p' S E') :
    Ends roster (m >>= f) p S E' := by
  obtain ⟨r, p₁, h₁, hp₁, hg₁, hq⟩ := hm
  cases r with
  | error e => exact ⟨.error e, p₁, bind_of_error h₁, hp₁, hg₁, hE e hq⟩
  | ok a =>
    obtain ⟨r, p₂, h₂, hp₂, hg₂, hs⟩ := hf a p₁ hp₁ hg₁.toGrows hq
    exact ⟨r, p₂, (bind_of_ok h₁).trans h₂, hp₂, hg₁.trans hg₂, hs⟩

end Ends

inductive Stands (roster : List Handle) (p : Pass) : TermValue → Figure → Prop where
  | number {x : Double} (proper : x.Proper) : Stands roster p (.number x) (.number x)
  | operand {h : Handle} {x : Lowered} (means : Means roster p (.handle h) x) :
      Stands roster p (.operand (.handle h)) (.value x)

theorem Stands.grows {x : Figure} (h : Stands roster p v x) (hp : p.Orderly roster)
    (hg : Grows p p') : Stands roster p' v x := by
  cases h with
  | number proper => exact .number proper
  | operand means => exact .operand (means.grows hp hg)

abbrev StandAll (roster : List Handle) (p : Pass) (vs : List (TermValue × Figure)) : Prop :=
  ∀ v ∈ vs, Stands roster p v.1 v.2

theorem foldedTerm?_eq (h : StandAll roster p vs) :
    foldedTerm? f (vs.map Prod.fst) = Figure.folded? f (vs.map Prod.snd) := by
  have hmap : (vs.map Prod.fst).mapM TermValue.number? =
      (vs.map Prod.snd).mapM Figure.number? := by
    induction vs with
    | nil => rfl
    | cons v rest ih =>
      unfold StandAll at h
      rw [List.forall_mem_cons] at h
      have hv : v.1.number? = v.2.number? := by
        obtain ⟨v, x⟩ := v
        cases h.1 <;> rfl
      rw [List.map_cons, List.map_cons, List.mapM_cons, List.mapM_cons, hv, ih h.2]
  rw [foldedTerm?, Figure.folded?_eq_fold, hmap]

theorem materialize_gives {x : Figure} (hp : p.Orderly roster)
    (h : Stands roster p v x) :
    Gives roster (materialize constantNodes v) p fun o p' =>
      Means roster p' o (x.argument constantNodes) := by
  cases h with
  | operand means => exact .pure hp means
  | number proper =>
    rw [Figure.argument_number]
    cases constantNodes with
    | false => exact .pure hp .number
    | true => exact (constant_gives hp proper).bind fun h p' hp' _ hm => .pure hp' hm

theorem materializeAll_gives (hp : p.Orderly roster) (h : StandAll roster p vs) :
    Gives roster (materializeAll constantNodes (vs.map Prod.fst)) p fun os p' =>
      ∃ zs : List (Operand × Lowered), os = zs.map Prod.fst ∧
        zs.map Prod.snd = (vs.map Prod.snd).map (·.argument constantNodes) ∧
        ∀ z ∈ zs, Means roster p' z.1 z.2 := by
  induction vs generalizing p with
  | nil => exact .pure hp ⟨[], rfl, rfl, by simp⟩
  | cons v rest ih =>
    unfold StandAll at h
    rw [List.forall_mem_cons] at h
    refine (materialize_gives hp h.1).bind fun o p₁ hp₁ hg₁ ho => ?_
    refine (ih hp₁ fun w hw => (h.2 w hw).grows hp hg₁).bind fun os p₂ hp₂ hg₂ hos => ?_
    obtain ⟨zs, rfl, hsnd, hm⟩ := hos
    refine .pure hp₂ ⟨(o, v.2.argument constantNodes) :: zs, rfl, ?_, ?_⟩
    · rw [List.map_cons, hsnd]
      rfl
    · exact List.forall_mem_cons.mpr ⟨ho.grows hp₁ hg₂, hm⟩

/-- What does not fold as a term does not fold as a call of operands. -/
theorem folded?_operands
    (ha : f.signature.fault? vs.length = none) (hv : StandAll roster p vs)
    (hn : Figure.folded? f (vs.map Prod.snd) = none)
    (hsnd : zs.map Prod.snd = (vs.map Prod.snd).map (·.argument constantNodes))
    (hz : ∀ z ∈ zs, Means roster p' z.1 z.2) : folded? f (zs.map Prod.fst) = none := by
  unfold folded?
  split
  · next hf =>
    rw [Option.map_eq_none_iff, Option.bind_eq_none_iff]
    intro ys hys
    have hall : ∀ x ∈ vs.map Prod.snd, ∃ y, x = .number y := by
      intro x hx
      have hmem : x.argument constantNodes ∈ zs.map Prod.snd := by
        rw [hsnd]
        exact List.mem_map_of_mem hx
      obtain ⟨⟨o, y⟩, hmem', heq⟩ := List.mem_map.mp hmem
      obtain ⟨w, -, hw⟩ := forall₂_mem_left (forall₂_of_mapM hys)
        (List.mem_map_of_mem (f := Prod.fst) hmem')
      obtain ⟨⟨v, x⟩, hvx, rfl⟩ := List.mem_map.mp hx
      -- a value that is no number is on a handle, and handles are not folded
      cases hv _ hvx with
      | number => exact ⟨_, rfl⟩
      | operand means =>
        cases hz _ hmem' with
        | carried => cases hw
        | number =>
          cases heq
          cases means
    have := Figure.isSome_folded? hf (by rwa [List.length_map]) hall
    rw [hn] at this
    cases this
  · rfl

/-- A call succeeds if and only if its parameters take the kinds of its arguments. -/
theorem call_ends (hp : p.Orderly roster)
    (hz : ∀ z ∈ zs, Means roster p z.1 z.2) (ha : f.signature.fault? zs.length = none)
    (ho : f.offeredBy p.tree.editor = true) (hf : folded? f (zs.map Prod.fst) = none) :
    Ends roster (call f (zs.map Prod.fst)) p
      (fun o p' => ∃ h, o = .handle h ∧
        Means roster p' (.handle h) (.apply p.tree.editor f (zs.map Prod.snd)) ∧
        f.kindOn? (zs.map (·.2.kind)) =
          some (Lowered.apply p.tree.editor f (zs.map Prod.snd)).kind)
      fun e => e.faultClass = .type ∧ f.kindOn? (zs.map (·.2.kind)) = none := by
  have hkinds : (zs.map Prod.fst).map (·.kind) = zs.map (·.2.kind) := by
    rw [List.map_map]
    exact List.map_congr_left fun z hz' => (hz z hz').kind_eq
  have hfault : callFault? p.tree.editor f (zs.map Prod.fst) = kindFault? f (zs.map Prod.fst) := by
    unfold callFault?
    rw [List.length_map, ha]
    dsimp only
    rw [ho]
    rfl
  unfold call
  refine Ends.bind (E := fun _ => False) (.of_gives (Q := fun t q => q = p ∧ t = p.tree)
    ⟨p.tree, p, rfl, hp, .refl, rfl, rfl⟩) (fun _ h => h.elim) fun t q _ _ hq => ?_
  obtain ⟨rfl, rfl⟩ := hq
  rw [hfault]
  cases hc : kindFault? f (zs.map Prod.fst) with
  | some fault =>
    refine .throw hp ⟨faultClass_kindFault? hc, ?_⟩
    rw [Function.kindOn?, if_neg]
    rw [← hkinds, ← kindFault?_eq_none_iff, hc]
    simp
  | none =>
    have htakes : f.takesAll (zs.map (·.2.kind)) = true := by
      rw [← hkinds, ← kindFault?_eq_none_iff, hc]
    have hcallable := Function.callable_of_takesAll ho (by rwa [List.length_map]) htakes
    have hflags : Function.vectorFlags (zs.map (·.2.kind)) = zs.map (·.2.isVector) := List.map_map
    have hnumeric : ∀ z ∈ zs, z.2.kind.isNumeric = true := by
      intro z hz'
      obtain ⟨i, hi⟩ := List.mem_iff_getElem?.mp hz'
      have := Function.takesAll_iff.mp htakes i z.2.kind (by rw [List.getElem?_map, hi]; rfl)
      exact (Bool.and_eq_true_iff.mp this).1
    rw [hflags] at hcallable
    dsimp only
    rw [hf]
    refine .of_gives ((apply_gives hp hz hnumeric hcallable).bind fun h p' hp' _ hm => ?_)
    refine .pure hp' ⟨h, rfl, hm, ?_⟩
    rw [Function.kindOn?_eq htakes, hflags, ← map_flags]
    rw [← map_flags] at hcallable
    rw [Lowered.kind_apply hcallable]

def InputsMean (roster : List Handle) (p : Pass) (options : Options) (inputs : Inputs) : Prop :=
  ∀ n h, inputs.lookup n = some h →
    Means roster p (.handle h) (.ofVariable p.tree.editor (options.kindOf n) n)

theorem InputsMean.grows {options : Options} (hp : p.Orderly roster)
    (hg : Grows p p') (h : InputsMean roster p options inputs) :
    InputsMean roster p' options inputs := by
  intro n g hn
  rw [hg.editor]
  exact (h n g hn).grows hp hg

/-- Why evaluating fails: kinds do not fit, or a variable is unknown. -/
def Refused (inputs : Inputs) (names : List String) (kinds : Prop) (e : Fault) : Prop :=
  e.faultClass = .type ∧ kinds ∨ ∃ n ∈ names, inputs.lookup n = none ∧ e = .unknownVariable n

theorem Refused.mono {names names' : List String} {kinds kinds' : Prop}
    {e : Fault} (h : Refused inputs names kinds e) (hn : names ⊆ names') (hk : kinds → kinds') :
    Refused inputs names' kinds' e :=
  h.imp (And.imp_right hk) fun ⟨n, hmem, hrest⟩ => ⟨n, hn hmem, hrest⟩

theorem length_lowerAll (editor : Editor) (options : Options) (terms : List Term) :
    (Term.lowerAll editor options terms).length = terms.length := by
  induction terms with
  | nil => rfl
  | cons t terms ih => rw [Term.lowerAll, List.length_cons, ih, List.length_cons]

theorem kind_of_folded? {figures : List Figure} {x : Double}
    (h : Figure.folded? f figures = some x) : f.kindOn? (figures.map (·.kind)) = some .scalar := by
  rw [Figure.folded?_eq_fold] at h
  split at h
  · next hf =>
    obtain ⟨ys, hys, -⟩ := Option.bind_eq_some_iff.mp h
    have hscalar : ∀ kind ∈ figures.map (·.kind), kind = .scalar := by
      intro kind hk
      obtain ⟨y, hy, rfl⟩ := List.mem_map.mp hk
      obtain ⟨w, -, hw⟩ := forall₂_mem_left (forall₂_of_mapM hys) hy
      cases y with
      | number => rfl
      | value => cases hw
    have hnone : (Function.vectorFlags (figures.map (·.kind))).any id = false := by
      rw [Function.any_vectorFlags]
      refine Bool.eq_false_iff.mpr fun hc => ?_
      cases hscalar _ (List.contains_iff_mem.mp hc)
    rw [Function.kindOn?_eq (Function.takesAll_of_scalars hscalar),
      Function.resultKind_scalar (Function.not_vectorOnly_of_folds hf) hnone]
  · cases h

theorem proper_of_folded? (hv : StandAll roster p vs) {x : Double}
    (h : Figure.folded? f (vs.map Prod.snd) = some x) : x.Proper := by
  rw [Figure.folded?_eq_fold] at h
  split at h
  · obtain ⟨ys, hys, hx⟩ := Option.bind_eq_some_iff.mp h
    refine Double.proper_fold? (fun y hy => ?_) hx
    obtain ⟨fig, hfig, hnumber⟩ := forall₂_mem_right (forall₂_of_mapM hys) hy
    obtain ⟨⟨v, _⟩, hmem, rfl⟩ := List.mem_map.mp hfig
    cases hv _ hmem with
    | number proper =>
      cases hnumber
      exact proper
    | operand => cases hnumber
  · cases h

section Evaluate

variable {options : Options} {inputs : Inputs}

/-- A call, once its arguments have been evaluated. -/
theorem evaluate_call_ends (options : Options) {f : Function} (hp : p.Orderly roster)
    (hv : StandAll roster p vs) (ha : f.signature.fault? vs.length = none)
    (ho : f.offeredBy p.tree.editor = true) :
    Ends roster
      (match foldedTerm? f (vs.map Prod.fst) with
        | some x => pure (.number x)
        | none => do
          let operands ← materializeAll options.constantNodes (vs.map Prod.fst)
          return .operand (← call f operands))
      p
      (fun v p' =>
        let figure := match Figure.folded? f (vs.map Prod.snd) with
          | some x => .number x
          | none => .value (.apply p.tree.editor f
              ((vs.map Prod.snd).map (·.argument options.constantNodes)))
        Stands roster p' v figure ∧ f.kindOn? (vs.map (·.2.kind)) = some figure.kind)
      fun e => e.faultClass = .type ∧ f.kindOn? (vs.map (·.2.kind)) = none := by
  rw [foldedTerm?_eq hv]
  cases hfold : Figure.folded? f (vs.map Prod.snd) with
  | some x =>
    have hkind := kind_of_folded? hfold
    rw [List.map_map] at hkind
    exact .of_gives (.pure hp ⟨.number (proper_of_folded? hv hfold), hkind⟩)
  | none =>
    refine Ends.bind (E := fun _ => False) (.of_gives (materializeAll_gives hp hv))
      (fun _ h => h.elim) fun os q hq hg hos => ?_
    obtain ⟨zs, rfl, hsnd, hz⟩ := hos
    have hlen : zs.length = vs.length := by
      have := congrArg List.length hsnd
      simpa using this
    have hkinds : zs.map (·.2.kind) = vs.map (·.2.kind) := by
      have := congrArg (List.map Lowered.kind) hsnd
      simpa [Function.comp_def, Figure.kind_argument] using this
    have hcall := call_ends hq hz (by rwa [hlen]) (by rwa [hg.editor])
      (folded?_operands ha hv hfold hsnd hz)
    rw [hkinds, hg.editor, hsnd] at hcall
    refine hcall.bind (fun _ h => h) fun o p' hp' _ ho' => ?_
    obtain ⟨h, rfl, hm, hkind⟩ := ho'
    exact .of_gives (.pure hp' ⟨.operand hm, hkind⟩)

mutual

/-- Evaluating a term gives a value that stands for it, if its kind can be
inferred and its variables are inputs. -/
theorem evaluate_ends (term : Term) {p : Pass} (hp : p.Orderly roster)
    (hi : InputsMean roster p options inputs) (hw : term.WellMade)
    (ho : ∀ f ∈ term.calls, f.offeredBy p.tree.editor = true) :
    Ends roster (evaluate options.constantNodes inputs term) p
      (fun v p' => Stands roster p' v (term.lower p.tree.editor options) ∧
        term.kind? options = some (term.lower p.tree.editor options).kind)
      (Refused inputs term.occurrences (term.kind? options = none)) := by
  match term with
  | .constant x => exact .of_gives (.pure hp ⟨.number (.inr hw), rfl⟩)
  | .name n =>
    unfold evaluate
    cases hn : inputs.lookup n with
    | some h =>
      have hm := hi n h hn
      refine .of_gives (.pure hp ⟨.operand hm, ?_⟩)
      rfl
    | none => exact .throw hp (.inr ⟨n, by simp [Term.occurrences], hn, rfl⟩)
  | .call f args =>
    have hargs := evaluateAll_ends args hp hi hw.2
      fun g hg => ho g (List.mem_cons_of_mem _ hg)
    unfold evaluate
    refine hargs.bind (fun e he => he.mono (List.Subset.refl _) fun hnone => ?_)
      fun values q hq hg hvalues => ?_
    · rw [Term.kind?, hnone]
      rfl
    · obtain ⟨vs, rfl, hsnd, hv, hkinds⟩ := hvalues
      have hlen : vs.length = args.length := by
        rw [← length_lowerAll p.tree.editor options args, ← hsnd, List.length_map]
      have hcall := evaluate_call_ends options hq hv (by rw [hlen]; exact hw.1)
        (by rw [hg.editor]; exact ho f List.mem_cons_self)
      have hkind : (Term.call f args).kind? options = f.kindOn? (vs.map (·.2.kind)) := by
        rw [Term.kind?, hkinds]
        rfl
      rw [hsnd, hg.editor, ← hkind] at hcall
      obtain ⟨r, p', hrun, hp', hg', hr⟩ := hcall
      refine ⟨r, p', hrun, hp', hg', ?_⟩
      cases r with
      | ok v => exact hr
      | error e => exact .inl hr

theorem evaluateAll_ends (terms : List Term) {p : Pass} (hp : p.Orderly roster)
    (hi : InputsMean roster p options inputs) (hw : Term.WellMadeAll terms)
    (ho : ∀ f ∈ Term.callsAll terms, f.offeredBy p.tree.editor = true) :
    Ends roster (evaluateAll options.constantNodes inputs terms) p
      (fun values p' => ∃ vs : List (TermValue × Figure), values = vs.map Prod.fst ∧
        vs.map Prod.snd = Term.lowerAll p.tree.editor options terms ∧ StandAll roster p' vs ∧
        Term.kinds? options terms = some (vs.map (·.2.kind)))
      (Refused inputs (Term.occurrencesAll terms) (Term.kinds? options terms = none)) := by
  match terms with
  | [] => exact .of_gives (.pure hp ⟨[], rfl, rfl, by simp, rfl⟩)
  | t :: rest =>
    unfold evaluateAll
    refine (evaluate_ends t hp hi hw.1 fun f hf => ho f (List.mem_append_left _ hf)).bind
      (fun e he => he.mono (List.subset_append_left _ _) fun hnone => ?_)
      fun v p₁ hp₁ hg₁ hv => ?_
    · rw [Term.kinds?, hnone]
      rfl
    · obtain ⟨hstands, hkind⟩ := hv
      have hrest := evaluateAll_ends rest hp₁ (hi.grows hp hg₁) hw.2 fun f hf => by
        rw [hg₁.editor]
        exact ho f (List.mem_append_right _ hf)
      refine hrest.bind (fun e he => he.mono (List.subset_append_right _ _) fun hnone => ?_)
        fun values p₂ hp₂ hg₂ hvalues => ?_
      · rw [Term.kinds?, hkind, hnone]
        rfl
      · obtain ⟨vs, rfl, hsnd, hvs, hkinds⟩ := hvalues
        rw [hg₁.editor] at hsnd
        refine .of_gives (.pure hp₂
          ⟨(v, t.lower p.tree.editor options) :: vs, rfl, ?_, ?_, ?_⟩)
        · rw [List.map_cons, hsnd, Term.lowerAll]
        · exact List.forall_mem_cons.mpr ⟨hstands.grows hp₁ hg₂, hvs⟩
        · rw [Term.kinds?, hkind, hkinds]
          rfl

end

end Evaluate

end Pass

end FormulaGraph
