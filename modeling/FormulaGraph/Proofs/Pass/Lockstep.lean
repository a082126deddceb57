import FormulaGraph.Proofs.Pass.Pairing
import FormulaGraph.Proofs.Pass.ReplayCalls

/-!
What holds of two evaluations of a term because it holds of the steps that
constructions are made of, step beside step. Every layer of constructions does
the same on operands that correspond, and so does the evaluation of a term.
-/

namespace FormulaGraph.Pass

namespace Pairing

variable {P : Pairing} {args args' : List Operand}

theorem slots_from (first : Nat) (h : List.Forall₂ P.Operands args args') :
    List.Forall₂ P.Slots (slotsFrom first args) (slotsFrom first args') := by
  unfold slotsFrom
  induction h generalizing first with
  | nil => exact .nil
  | cons ho _ ih =>
    simp only [List.mapIdx_cons]
    refine .cons ⟨rfl, ho⟩ ?_
    have := ih (first + 1)
    simpa only [Nat.add_assoc, Nat.add_comm 1] using this

theorem exists_pairs (ha : List.Forall₂ P.Operands args args') :
    ∃ zs : List (Operand × Operand), args = zs.map Prod.fst ∧ args' = zs.map Prod.snd ∧
      ∀ z ∈ zs, P.Operands z.1 z.2 := by
  obtain ⟨hlen, hz⟩ := List.forall₂_iff_zip.mp ha
  exact ⟨args.zip args', (List.map_fst_zip (Nat.le_of_eq hlen)).symm,
    (List.map_snd_zip (Nat.le_of_eq hlen.symm)).symm, fun z hz' => hz hz'⟩

theorem kinds_related (ha : List.Forall₂ P.Operands args args') :
    args'.map (·.kind) = args.map (·.kind) := by
  induction ha with
  | nil => rfl
  | cons ho _ ih => rw [List.map_cons, List.map_cons, ih, ho.kind]

theorem callFault?_congr (editor : Editor) (f : Function)
    (hk : args'.map (·.kind) = args.map (·.kind)) :
    callFault? editor f args' = callFault? editor f args := by
  have hlen : args'.length = args.length := by simpa using congrArg List.length hk
  have hvector : ∀ i : Nat, (args'[i]?.any (·.isVector)) = (args[i]?.any (·.isVector)) := by
    intro i
    have := congrArg (fun kinds => kinds[i]?.any (· == .vector)) hk
    simpa [Option.any_map, Operand.isVector, Function.comp_def] using this
  have hnumeric : args'.any (!·.kind.isNumeric) = args.any (!·.kind.isNumeric) := by
    have := congrArg (fun kinds => kinds.any (!Kind.isNumeric ·)) hk
    simpa [List.any_map, Function.comp_def] using this
  unfold callFault? kindFault? vectorMisfit?
  simp only [hlen, hvector, hnumeric, hk]

theorem number?_related {o o' : Operand} (ho : P.Operands o o') :
    Pass.number? o' = Pass.number? o := by
  cases ho <;> rfl

theorem folded?_related (f : Function) (ha : List.Forall₂ P.Operands args args') :
    folded? f args' = folded? f args := by
  have : args'.mapM Pass.number? = args.mapM Pass.number? := by
    induction ha with
    | nil => rfl
    | cons ho _ ih => rw [List.mapM_cons, List.mapM_cons, ih, number?_related ho]
  rw [folded?, folded?, this]

inductive Values (P : Pairing) : TermValue → TermValue → Prop
  | number (x : Numeric.Double) : Values P (.number x) (.number x)
  | operand {o o' : Operand} (h : P.Operands o o') : Values P (.operand o) (.operand o')

theorem Values.toOperand {v v' : TermValue} (hv : P.Values v v') :
    P.Operands v.toOperand v'.toOperand := by
  cases hv with
  | number x => exact .literal _
  | operand ho => exact ho

theorem foldedTerm?_related (f : Function) {values values' : List TermValue}
    (hv : List.Forall₂ P.Values values values') : foldedTerm? f values' = foldedTerm? f values := by
  have : values'.mapM TermValue.number? = values.mapM TermValue.number? := by
    induction hv with
    | nil => rfl
    | cons hv _ ih =>
      rw [List.mapM_cons, List.mapM_cons, ih]
      cases hv <;> rfl
  rw [foldedTerm?, foldedTerm?, this]

def InputEntries (P : Pairing) (e e' : String × Handle) : Prop := e'.1 = e.1 ∧ P.Handles e.2 e'.2

def Axes (P : Pairing) (a a' : Operand × Operand × Operand) : Prop :=
  P.Operands a.1 a'.1 ∧ P.Operands a.2.1 a'.2.1 ∧ P.Operands a.2.2 a'.2.2

theorem getD_scalar (ha : List.Forall₂ P.Operands args args') (i : Nat) (x : Numeric.Single) :
    P.Operands (args[i]?.getD (.scalar x)) (args'[i]?.getD (.scalar x)) := by
  rcases rel_cases (forall₂_getElem? ha i) with ⟨ho, ho'⟩ | ⟨o, o', ho, ho', hr⟩
  · rw [ho, ho']
    exact .literal _
  · rw [ho, ho']
    exact hr

inductive BuiltOperands (P : Pairing) : Operand → Operand → Prop
  | handle {a a' : Handle} (h : P.Built a a') : BuiltOperands P (.handle a) (.handle a')

theorem BuiltOperands.operands {o o' : Operand} (h : P.BuiltOperands o o') : P.Operands o o' := by
  cases h with
  | handle h => exact .handle h.toHandles

end Pairing

/-- A relation between computations of two passes that sequencing keeps and that
the steps of constructions have on operands that correspond. -/
structure Lockstep (P : Pairing) (Members : List NodeId → List NodeId → Prop)
    (T : {α β : Type} → (α → β → Prop) → PassM α → PassM β → Prop) : Prop where
  nil : Members [] []
  cons : ∀ {x x' ids ids'}, P.node x x' → Members ids ids' → Members (x :: ids) (x' :: ids')
  append : ∀ {ids ids' more more'}, Members ids ids' → Members more more' →
    Members (ids ++ more) (ids' ++ more')
  dedup : ∀ {ids ids'}, Members ids ids' → Members (dedupAdjacent ids) (dedupAdjacent ids')
  pure : ∀ {α β : Type} {R : α → β → Prop} {a b}, R a b → T R (pure a) (pure b)
  throw : ∀ {α β : Type} {R : α → β → Prop} (f : Fault), T R (throw f) (throw f)
  bind : ∀ {α β γ δ : Type} {R : α → β → Prop} {S : γ → δ → Prop} {m m'} {k : α → PassM γ}
    {k' : β → PassM δ}, T R m m' → (∀ a b, R a b → T S (k a) (k' b)) → T S (m >>= k) (m' >>= k')
  editor : T (fun t t' : Tree => t'.editor = t.editor) getTree getTree
  tag : ∀ {args args'} (op : String), List.Forall₂ P.Operands args args' →
    T Pairing.Tags (tag op args) (tag op args')
  result? : ∀ name, T (Option.Rel (List.Forall₂ P.Built)) (result? name) (result? name)
  keepResult : ∀ {hs hs'} (name : String), List.Forall₂ P.Built hs hs' →
    T Whatever (keepResult name hs) (keepResult name hs')
  nodeFor : ∀ {name : String} {type : NodeType} (settings : List (String × String)),
    Tag.isTag name = true → type.isBuilt = true →
    T P.node (nodeFor name type settings) (nodeFor name type settings)
  activate : ∀ {x x'}, P.node x x' → T Whatever (activate x) (activate x')
  wire : ∀ {x x' o o'}, P.node x x' → ∀ slot, P.Operands o o' →
    T Whatever (wire x slot o) (wire x' slot o')
  wireAll : ∀ {x x' ins ins'}, P.node x x' → List.Forall₂ P.Slots ins ins' →
    T Whatever (wireAll x ins) (wireAll x' ins')
  readOutput : ∀ {x x'}, P.node x x' → ∀ slot kind,
    T P.Built (readOutput x slot kind) (readOutput x' slot kind)
  hold : ∀ {y y'} x, P.node y y' →
    T Whatever (modify (held y x) : PassM PUnit) (modify (held y' x) : PassM PUnit)
  frame : ∀ {name label : String} {members members'}, Members members members' →
    T Whatever (frame name label members) (frame name label members')

namespace Lockstep

open Pairing

variable {P : Pairing} {Members : List NodeId → List NodeId → Prop}
  {T : {α β : Type} → (α → β → Prop) → PassM α → PassM β → Prop} (h : Lockstep P Members T)

theorem ite (_ : Lockstep P Members T) {α β : Type} {R : α → β → Prop} {c c' : Prop} [Decidable c]
    [Decidable c'] {m k : PassM α} {m' k' : PassM β} (hc : c' ↔ c) (hm : c → T R m m')
    (hk : ¬c → T R k k') : T R (if c then m else k) (if c' then m' else k') := by
  by_cases h : c
  · rw [if_pos h, if_pos (hc.mpr h)]
    exact hm h
  · rw [if_neg h, if_neg (mt hc.mp h)]
    exact hk h

def Constructs (_ : Lockstep P Members T) (construct : Construction) : Prop :=
  ∀ f {tag : String} {args args' : List Operand}, Tag.isTag tag = true →
    List.Forall₂ P.Operands args args' → Enough f args →
    T P.Built (construct f tag args) (construct f tag args')

section Layers

variable {tag : String} {args args' : List Operand}

include h

theorem build {name : String} {plan plan' : NodePlan} (ht : Tag.isTag name = true)
    (hb : plan.type.isBuilt = true) (hi : List.Forall₂ P.Slots plan.inputs plan'.inputs)
    (hp : plan' = { plan with inputs := plan'.inputs }) :
    T P.Built (build name plan) (build name plan') := by
  refine h.bind (h.result? name) fun found found' hf => ?_
  rcases hf with (_ | ⟨hh, _⟩) | _
  case some.cons => exact h.pure hh
  all_goals
    dsimp only
    rw [hp]
    refine h.bind (h.nodeFor _ ht hb) fun x x' hx => h.bind (h.activate hx) fun _ _ _ => ?_
    refine h.bind (h.wireAll hx hi) fun _ _ _ => h.bind (h.readOutput hx _ _) fun _ _ hh => ?_
    exact h.bind (h.keepResult _ (.cons hh .nil)) fun _ _ _ => h.pure hh

theorem separate {v v' : Operand} (hv : P.Operands v v') :
    T (fun a b => P.Built a.1 b.1 ∧ P.Built a.2.1 b.2.1 ∧ P.Built a.2.2 b.2.2)
      (separate v) (separate v') := by
  refine h.bind (h.tag _ (.cons hv .nil)) fun _ name hname => ?_
  obtain ⟨rfl, ht⟩ := hname
  refine h.bind (h.result? name) fun found found' hf => ?_
  rcases hf with (_ | ⟨ha, _ | ⟨hb, _ | ⟨hc, _ | _⟩⟩⟩) | _
  case some.cons.cons.cons.nil => exact h.pure ⟨ha, hb, hc⟩
  all_goals
    refine h.bind (h.nodeFor _ ht rfl) fun x x' hx => h.bind (h.activate hx) fun _ _ _ => ?_
    refine h.bind (h.wire hx 0 hv) fun _ _ _ => h.bind (h.readOutput hx 0 _) fun _ _ ha => ?_
    refine h.bind (h.readOutput hx 1 _) fun _ _ hb => h.bind (h.readOutput hx 2 _) fun _ _ hc => ?_
    refine h.bind (h.keepResult _ (.cons ha (.cons hb (.cons hc .nil)))) fun _ _ _ => ?_
    exact h.pure ⟨ha, hb, hc⟩

theorem constant (x : Numeric.Double) : T P.Built (constant x) (constant x) := by
  have make : T P.Built
      (do let id ← Pass.nodeFor (Tag.constantMark ++ x.text) .value []
          modify (held id x)
          let handle ← Pass.readOutput id 0 .scalar
          Pass.keepResult (Tag.constantMark ++ x.text) [handle]
          return handle)
      (do let id ← Pass.nodeFor (Tag.constantMark ++ x.text) .value []
          modify (held id x)
          let handle ← Pass.readOutput id 0 .scalar
          Pass.keepResult (Tag.constantMark ++ x.text) [handle]
          return handle) := by
    refine h.bind (h.nodeFor _ (Tag.isTag_constant _) rfl) fun y y' hy => ?_
    refine h.bind (h.hold x hy) fun _ _ _ => h.bind (h.readOutput hy 0 _) fun _ _ hh => ?_
    exact h.bind (h.keepResult _ (.cons hh .nil)) fun _ _ _ => h.pure hh
  refine h.bind (h.result? _) fun found found' hf => ?_
  rcases hf with (_ | ⟨hh, _⟩) | _
  · exact make
  · exact h.pure hh
  · exact make

theorem applyBy {construct : Construction} (hc : h.Constructs construct) (f : Function)
    (ha : List.Forall₂ P.Operands args args') (he : Enough f args) :
    T P.Built (applyBy construct f args) (applyBy construct f args') := by
  refine h.bind (h.tag _ ha) fun _ name hname => ?_
  obtain ⟨rfl, ht⟩ := hname
  refine h.bind (h.result? name) fun found found' hf => ?_
  rcases hf with (_ | ⟨hh, _⟩) | _
  case some.cons => exact h.pure hh
  all_goals
    refine h.bind (hc f ht ha he) fun _ _ hh => ?_
    exact h.bind (h.keepResult _ (.cons hh .nil)) fun _ _ _ => h.pure hh

theorem mathNode (f : Function) (ht : Tag.isTag tag = true)
    (ha : List.Forall₂ P.Operands args args') :
    T P.Built (mathNode f tag args) (mathNode f tag args') := by
  unfold Pass.mathNode
  split
  · exact h.throw _
  · exact h.build ht rfl (slots_from 0 ha) rfl

theorem combine {x y z x' y' z' : Operand} (hx : P.Operands x x') (hy : P.Operands y y')
    (hz : P.Operands z z') : T P.Built (combine x y z) (combine x' y' z') := by
  have ha : List.Forall₂ P.Operands [x, y, z] [x', y', z'] := .cons hx (.cons hy (.cons hz .nil))
  refine h.bind (h.tag _ ha) fun _ name hname => ?_
  obtain ⟨rfl, ht⟩ := hname
  exact h.build ht rfl (slots_from 0 ha) rfl

theorem chainSteps (f : Function) {first first' : Operand} (hf : P.BuiltOperands first first')
    (ha : List.Forall₂ P.Operands args args') :
    T (fun a b => P.BuiltOperands a.1 b.1 ∧ Members a.2 b.2)
      (chainSteps f first args) (chainSteps f first' args') := by
  induction ha generalizing first first' with
  | nil => exact h.pure ⟨hf, h.nil⟩
  | cons ho _ ih =>
    have hpair := List.Forall₂.cons hf.operands (.cons ho .nil)
    refine h.bind (h.tag _ hpair) fun _ name hname => ?_
    obtain ⟨rfl, ht⟩ := hname
    refine h.bind (h.mathNode f ht hpair) fun step step' hstep => ?_
    exact h.bind (ih (.handle hstep)) fun _ _ hl => h.pure ⟨hl.1, h.cons hstep.node hl.2⟩

/-- The first operand of a chain may be any. -/
theorem chainSteps_cons (f : Function) {first first' arg arg' : Operand}
    (hf : P.Operands first first') (ho : P.Operands arg arg')
    (ha : List.Forall₂ P.Operands args args') :
    T (fun a b => P.BuiltOperands a.1 b.1 ∧ Members a.2 b.2)
      (Pass.chainSteps f first (arg :: args)) (Pass.chainSteps f first' (arg' :: args')) := by
  have hpair := List.Forall₂.cons hf (.cons ho .nil)
  refine h.bind (h.tag _ hpair) fun _ name hname => ?_
  obtain ⟨rfl, ht⟩ := hname
  refine h.bind (h.mathNode f ht hpair) fun step step' hstep => ?_
  refine h.bind (h.chainSteps f (.handle hstep) ha) fun _ _ hl => ?_
  exact h.pure ⟨hl.1, h.cons hstep.node hl.2⟩

theorem chain {f : Function} (hf : f = .min ∨ f = .max) (ht : Tag.isTag tag = true)
    (ha : List.Forall₂ P.Operands args args') (he : Enough f args) :
    T P.Built (chain f tag args) (chain f tag args') := by
  rcases ha with _ | ⟨h₁, _ | ⟨h₂, _ | ⟨h₃, hrest⟩⟩⟩
  · simpa using he hf
  · simpa using he hf
  · exact h.mathNode f ht (.cons h₁ (.cons h₂ .nil))
  · refine h.bind (h.chainSteps_cons f h₁ h₂ (.cons h₃ hrest)) fun last last' hl => ?_
    obtain ⟨last, nodes⟩ := last
    obtain ⟨last', nodes'⟩ := last'
    obtain ⟨hlast, hnodes⟩ := hl
    refine h.bind (h.frame hnodes) fun _ _ _ => ?_
    cases hlast with
    | handle hb => exact h.pure hb

theorem native : h.Constructs native := by
  intro f tag args args' ht ha he
  cases hv : f.signature.variadic with
  | true =>
    cases f with
    | min => exact h.chain (.inl rfl) ht ha he
    | max => exact h.chain (.inr rfl) ht ha he
    | _ => cases hv
  | false =>
    obtain ⟨zs, rfl, rfl, hz⟩ := exists_pairs ha
    have hflags : ∀ z ∈ zs, (Operand.isVector ∘ Prod.snd) z = (Operand.isVector ∘ Prod.fst) z :=
      fun z hz' => (hz z hz').isVector
    -- both nodes follow the blueprint of the pairs of operands
    rw [native_eq_build hv, native_eq_build hv, Blueprint.native_map, Blueprint.native_map,
      Blueprint.native_congr hflags]
    cases hb : Blueprint.native (Operand.isVector ∘ Prod.fst) f zs with
    | none => exact h.throw _
    | some b =>
      have hi : List.Forall₂ P.Slots (b.map Prod.fst).inputs (b.map Prod.snd).inputs := by
        refine List.forall₂_map_left_iff.mpr (List.forall₂_map_right_iff.mpr ?_)
        exact List.forall₂_same.mpr fun e he => ⟨rfl, hz _ (Blueprint.mem_of_native hb e he)⟩
      show T P.Built (Pass.build tag (b.map Prod.fst).plan) (Pass.build tag (b.map Prod.snd).plan)
      exact h.build ht (Blueprint.neat_native hb).built hi rfl

theorem emulatedClamp {f : Function} {v low high v' low' high' : Operand} (hv : P.Operands v v')
    (hl : P.Operands low low') (hh : P.Operands high high') :
    T P.Built (emulatedClamp f tag v low high) (emulatedClamp f tag v' low' high') := by
  have bound : ∀ (g : Function) {a b a' b' : Operand}, P.Operands a a' → P.Operands b b' →
      T P.Built (Pass.applyBy Pass.native g [a, b]) (Pass.applyBy Pass.native g [a', b']) :=
    fun g _ _ _ _ ha hb => h.applyBy h.native g (.cons ha (.cons hb .nil)) fun _ => Nat.le_refl 2
  unfold Pass.emulatedClamp
  refine h.ite Iff.rfl (fun _ => ?_) fun _ => ?_
  · refine h.bind (bound .min hl hh) fun lower _ h₁ =>
      h.bind (bound .max hl hh) fun upper _ h₂ => ?_
    refine h.bind (bound .min hv (.handle h₂.toHandles)) fun capped _ h₃ => ?_
    refine h.bind (bound .max (.handle h₁.toHandles) (.handle h₃.toHandles)) fun result _ h₄ => ?_
    refine h.bind
      (h.frame (h.cons h₁.node (h.cons h₂.node (h.cons h₃.node (h.cons h₄.node h.nil)))))
      fun _ _ _ => ?_
    exact h.pure h₄
  · refine h.bind (bound .min hv hh) fun capped _ h₁ => ?_
    refine h.bind (bound .max hl (.handle h₁.toHandles)) fun result _ h₂ => ?_
    exact h.bind (h.frame (h.cons h₁.node (h.cons h₂.node h.nil))) fun _ _ _ => h.pure h₂

theorem scalarForm : h.Constructs scalarForm := by
  intro f tag args args' ht ha he
  refine h.bind h.editor fun t t' htree => ?_
  dsimp only
  rw [htree]
  have clamped : ∀ (f : Function) {v v' : Operand} {bounds bounds' : List Operand},
      Enough f (v :: bounds) → P.Operands v v' → List.Forall₂ P.Operands bounds bounds' →
      T P.Built
        (if t.editor.offers .clamp then Pass.native f tag (v :: bounds)
          else Pass.emulatedClamp f tag v (bounds[0]?.getD (.scalar 0))
            (bounds[1]?.getD (.scalar 1)))
        (if t.editor.offers .clamp then Pass.native f tag (v' :: bounds')
          else Pass.emulatedClamp f tag v' (bounds'[0]?.getD (.scalar 0))
            (bounds'[1]?.getD (.scalar 1))) :=
    fun f _ _ _ _ he hv hb => h.ite Iff.rfl (fun _ => h.native f ht (.cons hv hb) he)
      fun _ => h.emulatedClamp hv (getD_scalar hb 0 0) (getD_scalar hb 1 1)
  split
  · cases ha with
    | cons hv hb => exact clamped .clamp he hv hb
  · cases ha with
    | cons hv hb => exact clamped .clampauto he hv hb
  · next hclamp hauto =>
    split
    · cases ha with
      | cons hv hb => exact (hclamp _ _ rfl rfl).elim
    · cases ha with
      | cons hv hb => exact (hauto _ _ rfl rfl).elim
    · exact h.native f ht ha he

theorem axes {arg arg' : Operand} (ho : P.Operands arg arg') :
    T (fun a b => P.Axes a.1 b.1 ∧ Members a.2 b.2) (axes arg) (axes arg') := by
  cases ho with
  | handle hh =>
    unfold Pass.axes
    dsimp only
    rw [(Operands.handle hh).isVector]
    refine h.ite Iff.rfl (fun _ => ?_) fun _ => ?_
    · refine h.bind (h.separate (.handle hh)) fun _ _ hs => ?_
      obtain ⟨hx, hy, hz⟩ := hs
      exact h.pure ⟨⟨.handle hx.toHandles, .handle hy.toHandles, .handle hz.toHandles⟩,
        h.cons hx.node h.nil⟩
    · exact h.pure ⟨⟨.handle hh, .handle hh, .handle hh⟩, h.nil⟩
  | literal l =>
    unfold Pass.axes
    split
    · exact h.pure ⟨⟨.literal _, .literal _, .literal _⟩, h.nil⟩
    · refine h.ite Iff.rfl (fun _ => ?_) fun _ => ?_
      · refine h.bind (h.separate (.literal l)) fun _ _ hs => ?_
        obtain ⟨hx, hy, hz⟩ := hs
        exact h.pure ⟨⟨.handle hx.toHandles, .handle hy.toHandles, .handle hz.toHandles⟩,
          h.cons hx.node h.nil⟩
      · exact h.pure ⟨⟨.literal l, .literal l, .literal l⟩, h.nil⟩

theorem axesAll (ha : List.Forall₂ P.Operands args args') :
    T (fun a b => a.1.length = args.length ∧ List.Forall₂ P.Axes a.1 b.1 ∧
      Members a.2 b.2) (axesAll args) (axesAll args') := by
  induction ha with
  | nil => exact h.pure ⟨rfl, .nil, h.nil⟩
  | cons ho _ ih =>
    refine h.bind (h.axes ho) fun _ _ h₁ => h.bind ih fun _ _ h₂ => ?_
    obtain ⟨hlen, haxes, hnodes⟩ := h₂
    exact h.pure ⟨congrArg (· + 1) hlen, .cons h₁.1 haxes, h.append h₁.2 hnodes⟩

theorem perComponent : h.Constructs perComponent := by
  intro f tag args args' ht ha he
  refine h.bind (h.axesAll ha) fun a b hsplit => ?_
  obtain ⟨split, separated⟩ := a
  obtain ⟨split', separated'⟩ := b
  obtain ⟨hlen, haxes, hnodes⟩ := hsplit
  have step : ∀ g : Operand × Operand × Operand → Operand,
      (∀ a b, P.Axes a b → P.Operands (g a) (g b)) →
      T P.Built (Pass.applyBy Pass.scalarForm f (split.map g))
        (Pass.applyBy Pass.scalarForm f (split'.map g)) := by
    intro g hg
    refine h.applyBy h.scalarForm f ?_ fun hf => ?_
    · exact List.rel_map (fun a b hab => hg a b hab) haxes
    · rw [List.length_map]
      exact hlen ▸ he hf
  refine h.bind (step (·.1) fun _ _ h => h.1) fun x _ hx => ?_
  refine h.bind (step (·.2.1) fun _ _ h => h.2.1) fun y _ hy => ?_
  refine h.bind (step (·.2.2) fun _ _ h => h.2.2) fun z _ hz => ?_
  refine h.bind (h.combine (.handle hx.toHandles) (.handle hy.toHandles) (.handle hz.toHandles))
    fun combined _ hc => ?_
  have hmembers := h.dedup (h.append hnodes
    (h.cons hx.node (h.cons hy.node (h.cons hz.node (h.cons hc.node h.nil)))))
  have hparallel : args'.tail.any (·.isVector) = args.tail.any (·.isVector) := by
    cases ha with
    | nil => rfl
    | cons _ ha => exact any_isVector ha
  dsimp only
  rw [hparallel]
  exact h.bind (h.frame hmembers) fun _ _ _ => h.pure hc

theorem numericForm : h.Constructs numericForm := by
  intro f tag args args' ht ha he
  refine h.bind h.editor fun t t' htree => ?_
  rw [isSplit, isSplit, htree, any_isVector ha]
  exact h.ite Iff.rfl (fun _ => h.perComponent f ht ha he) fun _ => h.scalarForm f ht ha he

theorem construct : h.Constructs construct := by
  intro f tag args args' ht ha he
  have step : ∀ {g : Function} {xs xs' : List Operand}, g ≠ .min ∧ g ≠ .max →
      List.Forall₂ P.Operands xs xs' → T P.Built (Pass.applyBy Pass.numericForm g xs)
        (Pass.applyBy Pass.numericForm g xs') :=
    fun hg hx => h.applyBy h.numericForm _ hx fun hf => (hf.elim hg.1 hg.2).elim
  unfold Pass.construct
  split
  · rcases ha with _ | ⟨ha, _ | ⟨hn, _ | _⟩⟩
    refine h.bind (step (by decide) (.cons (.literal _) (.cons hn .nil))) fun exponent _ h₁ => ?_
    refine h.bind (step (by decide) (.cons ha (.cons (.handle h₁.toHandles) .nil)))
      fun root _ h₂ => ?_
    exact h.bind (h.frame (h.cons h₁.node (h.cons h₂.node h.nil))) fun _ _ _ => h.pure h₂
  · rcases ha with _ | ⟨ha, _ | _⟩
    refine h.bind (step (by decide) (.cons (.literal _) (.cons ha .nil))) fun negated _ h₁ => ?_
    exact h.bind (h.frame (h.cons h₁.node h.nil)) fun _ _ _ => h.pure h₁
  · refine h.bind (step (by decide) ha) fun quotient _ h₁ => ?_
    refine h.bind (step (by decide) (.cons (.handle h₁.toHandles) .nil)) fun floored _ h₂ => ?_
    exact h.bind (h.frame (h.cons h₁.node (h.cons h₂.node h.nil))) fun _ _ _ => h.pure h₂
  · next hdiv hroot hneg =>
    split
    · rcases ha with _ | ⟨_, _ | ⟨_, _ | _⟩⟩
      exact (hroot _ _ rfl rfl).elim
    · rcases ha with _ | ⟨_, _ | _⟩
      exact (hneg _ rfl rfl).elim
    · exact (hdiv rfl).elim
    · exact h.numericForm f ht ha he

theorem call (f : Function) (ha : List.Forall₂ P.Operands args args') :
    T P.Operands (call f args) (call f args') := by
  refine h.bind h.editor fun t t' ht => ?_
  rw [ht, callFault?_congr _ f (kinds_related ha), folded?_related f ha]
  split
  · exact h.throw _
  · next hok =>
    split
    · exact h.pure (.literal _)
    · exact h.bind (h.applyBy h.construct f ha (enough_of_callFault? hok)) fun _ _ hh =>
        h.pure (.handle hh.toHandles)

theorem materialize (constantNodes : Bool) {v v' : TermValue} (hv : P.Values v v') :
    T P.Operands (materialize constantNodes v) (materialize constantNodes v') := by
  cases hv with
  | operand ho => exact h.pure ho
  | number x =>
    unfold Pass.materialize
    refine h.ite Iff.rfl (fun _ => ?_) fun _ => h.pure (.literal _)
    exact h.bind (h.constant x) fun _ _ hh => h.pure (.handle hh.toHandles)

theorem materializeAll (constantNodes : Bool) {values values' : List TermValue}
    (hv : List.Forall₂ P.Values values values') :
    T (List.Forall₂ P.Operands) (materializeAll constantNodes values)
      (materializeAll constantNodes values') := by
  induction hv with
  | nil => exact h.pure .nil
  | cons hv _ ih =>
    exact h.bind (h.materialize constantNodes hv) fun _ _ ho => h.bind ih fun _ _ hos =>
      h.pure (.cons ho hos)

end Layers

variable {inputs inputs' : Inputs}

mutual

theorem evaluate (h : Lockstep P Members T) (hi : List.Forall₂ P.InputEntries inputs inputs')
    (constantNodes : Bool) : (term : Term) → T P.Values
      (evaluate constantNodes inputs term) (evaluate constantNodes inputs' term)
  | .constant x => by
    unfold Pass.evaluate
    exact h.pure (.number x)
  | .name n => by
    unfold Pass.evaluate
    rcases rel_cases (lookup_related hi n) with ⟨hl, hl'⟩ | ⟨a, a', hl, hl', hh⟩
    · rw [hl, hl']
      exact h.throw _
    · rw [hl, hl']
      exact h.pure (.operand (.handle hh))
  | .call f args => by
    unfold Pass.evaluate
    refine h.bind (h.evaluateAll hi constantNodes args) fun values values' hv => ?_
    rw [foldedTerm?_related f hv]
    split
    · exact h.pure (.number _)
    · refine h.bind (h.materializeAll constantNodes hv) fun _ _ ho => ?_
      exact h.bind (h.call f ho) fun _ _ ho => h.pure (.operand ho)

theorem evaluateAll (h : Lockstep P Members T) (hi : List.Forall₂ P.InputEntries inputs inputs')
    (constantNodes : Bool) : (terms : List Term) →
      T (List.Forall₂ P.Values) (evaluateAll constantNodes inputs terms)
        (evaluateAll constantNodes inputs' terms)
  | [] => by
    unfold Pass.evaluateAll
    exact h.pure .nil
  | term :: rest => by
    unfold Pass.evaluateAll
    refine h.bind (h.evaluate hi constantNodes term) fun _ _ hv => ?_
    exact h.bind (h.evaluateAll hi constantNodes rest) fun _ _ hvs => h.pure (.cons hv hvs)

end

end Lockstep

namespace Pairing.Lawful

variable {P : Pairing} (h : P.Lawful)
include h

theorem dedupAdjacent {ids ids' : List NodeId} (hi : List.Forall₂ P.node ids ids') :
    List.Forall₂ P.node (dedupAdjacent ids) (dedupAdjacent ids') := by
  induction hi with
  | nil => exact .nil
  | @cons x x' _ _ hx hrest ih =>
    cases hrest with
    | nil => exact .cons hx .nil
    | @cons y y' _ _ hy hmore =>
      have heq : x = y ↔ x' = y' := Relator.rel_eq h.unique hx hy
      rw [Pass.dedupAdjacent, Pass.dedupAdjacent]
      by_cases hxy : x = y
      · rw [if_pos hxy, if_pos (heq.mp hxy)]
        exact ih
      · rw [if_neg hxy, if_neg (mt heq.mpr hxy)]
        exact .cons hx ih

/-- Passes over corresponding trees go on alike. -/
theorem lockstep : Lockstep P (List.Forall₂ P.node) P.Paired where
  nil := .nil
  cons := .cons
  append := fun hi hm => List.rel_append hi hm
  dedup := h.dedupAdjacent
  pure := .pure
  throw := fun f => .throw (.refl f)
  bind := .bind
  editor := fun _ _ hp => ⟨.ok (h.editor hp.tree), hp⟩
  tag := paired_tag
  result? := paired_result?
  keepResult := paired_keepResult
  nodeFor := h.nodeFor
  activate := h.activate
  wire := h.wire
  wireAll := h.wireAll
  readOutput := h.readOutput
  hold := h.hold
  frame := h.frame

theorem declareInputs (options : Options) {known known' : Inputs}
    (hk : List.Forall₂ P.InputEntries known known') (names : List String) :
    P.Paired (List.Forall₂ P.InputEntries) (declareInputs options known names)
      (declareInputs options known' names) := by
  induction names generalizing known known' with
  | nil => exact .pure hk
  | cons name rest ih =>
    exact .bind (h.input name _) fun _ _ hh => ih (.cons ⟨rfl, hh⟩ hk)

/-- A pass gives the same report in both trees, or fails alike. -/
theorem synthesis (unknowns : List String) (term : Term) (options : Options) :
    P.Paired Eq (synthesis unknowns term options) (synthesis unknowns term options) := by
  refine .bind (h.declareInputs options .nil unknowns) fun inputs inputs' hi => ?_
  refine .bind (.modifyTree fun _ _ ht => h.keepInputs unknowns ht) fun _ _ _ => ?_
  refine .bind (h.lockstep.evaluate hi _ term) fun value value' hv => ?_
  have ho := hv.toOperand
  dsimp only
  rw [ho.kind]
  refine .bind (h.output _ _) fun target target' htarget => ?_
  refine .bind (h.assign htarget ho) fun _ _ _ => ?_
  refine .bind h.settleOutput fun _ _ _ => .bind .get fun p p' hp => ?_
  refine .bind h.dropStale fun removed _ hr => .bind .getTree fun t t' ht => ?_
  rw [hp.created, h.generatedCount ht, hr]
  exact .pure rfl

theorem start {t t' : Tree} (ht : P.tree (Pass.start t).tree (Pass.start t').tree) :
    P.State (Pass.start t) (Pass.start t') where
  tree := ht
  counts := rfl
  literals := rfl
  index := by
    show List.Forall₂ P.Entries (tagIndex t) (tagIndex t')
    unfold tagIndex
    rw [List.forall₂_reverse_iff, List.forall₂_map_left_iff, List.forall₂_map_right_iff]
    exact (h.tagged ht).imp fun _ _ hn => hn
  results := .nil
  used := .nil
  constants := rfl
  created := rfl

end Pairing.Lawful

end FormulaGraph.Pass
