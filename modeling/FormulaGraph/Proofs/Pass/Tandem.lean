import FormulaGraph.Proofs.Pass.Bookkeeping
import FormulaGraph.Proofs.Pass.Lockstep

/-!
Two passes over any trees of one editor. If both of them get through a
computation then their books agree: the handles that they have got for their
tags have the same kinds and numbers, whatever nodes they are on.
-/

namespace FormulaGraph

open Run

namespace Tree

theorem adjust?_of_socketFor {t t' : Tree} {side : Side} {name : String} {type : SocketType}
    {x : SocketId} (h : socketFor side name type t = (.ok x, t')) :
    (t.editor.adjust? type).isSome := by
  unfold socketFor at h
  rw [bind_of_ok (get_run t), bind_run, lift_run] at h
  unfold adjustType at h
  cases ha : t.editor.adjust? type with
  | some wanted => rfl
  | none =>
    rw [ha] at h
    cases h

theorem editor_dropSocket (t : Tree) (id : SocketId) : (t.dropSocket id).editor = t.editor := by
  show (removeSocket id t).2.editor = t.editor
  unfold removeSocket
  rw [bind_of_ok (get_run t)]
  cases t.boundarySocket? id <;> rfl

theorem editor_keepInputs (t : Tree) (keep : List String) :
    (t.keepInputs keep).editor = t.editor := by
  unfold keepInputs
  generalize t.inputsExcept keep = ids
  induction ids generalizing t with
  | nil => rfl
  | cons id ids ih => exact (ih _).trans (editor_dropSocket t id)

end Tree

namespace Pass

open Pairing

variable {α β γ δ : Type} {X : Pass → Pass → Prop} {R : α → β → Prop} {S : γ → δ → Prop}

def loose : Pairing := ⟨fun _ _ => True, fun _ _ => True, fun _ _ => True⟩

/-- What may be asked of two passes beside their books. -/
structure Companion (X : Pass → Pass → Prop) : Prop where
  steady : ∀ {p p' q q'}, X p p' → Steady p q → Steady p' q' → X q q'
  nodeFor : ∀ {p p' q q' tag type settings x x'}, X p p' →
    nodeFor tag type settings p = (.ok x, q) → nodeFor tag type settings p' = (.ok x', q') → X q q'

structure Alike (X : Pass → Pass → Prop) (p p' : Pass) : Prop where
  editor : p'.tree.editor = p.tree.editor
  counts : p'.counts = p.counts
  literals : p'.literals = p.literals
  results : List.Forall₂ loose.Results p.results p'.results
  beside : X p p'

theorem Alike.silent {p p' q q' : Pass} (h : Alike X p p') (hq : Silent p q) (hq' : Silent p' q')
    (hx : X q q') : Alike X q q' where
  editor := hq'.editor.trans (h.editor.trans hq.editor.symm)
  counts := by rw [hq'.counts, h.counts, hq.counts]
  literals := by rw [hq'.literals, h.literals, hq.literals]
  results := by
    rw [hq.results, hq'.results]
    exact h.results
  beside := hx

/-- Computations that leave passes alike if both of them succeed. -/
def Tandem (X : Pass → Pass → Prop) (R : α → β → Prop) (m : PassM α) (m' : PassM β) : Prop :=
  ∀ p p', Alike X p p' → ∀ a q b q', m p = (.ok a, q) → m' p' = (.ok b, q') →
    R a b ∧ Alike X q q'

theorem loose_ref (r r' : SocketRef) : loose.Ref r r' := ⟨.inl trivial, trivial⟩

namespace Tandem

variable {m : PassM α} {m' : PassM β} {k : α → PassM γ} {k' : β → PassM δ}

theorem pure {a : α} {b : β} (h : R a b) : Tandem X R (pure a) (pure b) := by
  rintro p p' hp _ _ _ _ ⟨⟩ ⟨⟩
  exact ⟨h, hp⟩

theorem throw (f : Fault) : Tandem X R (throw f) (throw f) := by
  rintro p p' hp _ _ _ _ ⟨⟩

theorem bind (hm : Tandem X R m m') (hk : ∀ a b, R a b → Tandem X S (k a) (k' b)) :
    Tandem X S (m >>= k) (m' >>= k') := by
  intro p p' hp c r d r' h h'
  obtain ⟨a, q, hrun, hrest⟩ := bind_eq_ok.mp h
  obtain ⟨b, q', hrun', hrest'⟩ := bind_eq_ok.mp h'
  obtain ⟨hr, hq⟩ := hm p p' hp a q b q' hrun hrun'
  exact hk a b hr q q' hq c r d r' hrest hrest'

theorem of_quiet (hx : Companion X) (hm : Leaves Quiet m) (hm' : Leaves Quiet m') :
    Tandem X Whatever m m' := by
  intro p p' hp a q b q' h h'
  have hq := hm p a q h
  have hq' := hm' p' b q' h'
  exact ⟨trivial, hp.silent hq.toSilent hq'.toSilent
    (hx.steady hp.beside hq.toSteady hq'.toSteady)⟩

end Tandem

theorem quiet_hold (id : NodeId) (x : Numeric.Double) :
    Leaves Quiet (modify (held id x) : PassM PUnit) := by
  rintro p a p' ⟨⟩
  have h : Steady p { p with tree := (held id x p).tree } := by
    refine .modifyNode ?_ p
    exact fun _ => ⟨rfl, rfl⟩
  exact ⟨⟨h.editor, h.index, h.created, h.supply, h.looks⟩, rfl, rfl, rfl⟩

section Steps

variable (hx : Companion X)
include hx

theorem tandem_nodeFor (tag : String) (type : NodeType) (settings : List (String × String)) :
    Tandem X loose.node (nodeFor tag type settings) (nodeFor tag type settings) := by
  intro p p' hp a q b q' h h'
  have hq := silent_nodeFor tag type settings p a q h
  have hq' := silent_nodeFor tag type settings p' b q' h'
  exact ⟨trivial, hp.silent hq hq' (hx.nodeFor hp.beside h h')⟩

theorem tandem_frame (name label : String) (members members' : List NodeId) :
    Tandem X Whatever (frame name label members) (frame name label members') := by
  intro p p' hp a q b q' h h'
  have hq := silent_frame name label members p a q h
  have hq' := silent_frame name label members' p' b q' h'
  refine ⟨trivial, hp.silent hq hq' ?_⟩
  obtain ⟨id, p₁, hnode, -⟩ := bind_eq_ok.mp h
  obtain ⟨id', p₁', hnode', -⟩ := bind_eq_ok.mp h'
  rw [frame_run hnode] at h
  rw [frame_run hnode'] at h'
  cases h
  cases h'
  exact hx.steady (hx.nodeFor hp.beside hnode hnode') (steady_framed _ _ _ _ _)
    (steady_framed _ _ _ _ _)

theorem tandem_readOutput (x x' : NodeId) (slot : Nat) (kind : Kind) :
    Tandem X loose.Built (readOutput x slot kind) (readOutput x' slot kind) := by
  intro p p' hp a q b q' h h'
  obtain ⟨n, s, hn, hs, rfl, rfl⟩ := readOutput_cases h
  obtain ⟨n', s', hn', hs', rfl, rfl⟩ := readOutput_cases h'
  refine ⟨⟨⟨rfl, ?_, rfl, loose_ref _ _⟩, trivial⟩, hp.editor, ?_, hp.literals, hp.results,
    hx.steady hp.beside ?_ ?_⟩
  · show p'.counts.get kind = p.counts.get kind
    rw [hp.counts]
  · show p'.counts.bump kind = p.counts.bump kind
    rw [hp.counts]
  · exact .of_tree rfl rfl rfl
  · exact .of_tree rfl rfl rfl

theorem tandem_tag {args args' : List Operand} (op : String)
    (h : List.Forall₂ loose.Operands args args') : Tandem X Tags (tag op args) (tag op args') := by
  rintro p p' hp a q b q' ⟨⟩ ⟨⟩
  have hm : markers p'.literals args' = markers p.literals args := by
    rw [hp.literals, markers_related h]
  refine ⟨⟨?_, Tag.isTag_operation _ _⟩, hp.editor, hp.counts, congrArg (·.2) hm, hp.results,
    hx.steady hp.beside ?_ ?_⟩
  · exact congrArg (Tag.operation op ·.1) hm
  · exact .of_tree rfl rfl rfl
  · exact .of_tree rfl rfl rfl

theorem tandem_keepResult {hs hs' : List Handle} (name : String)
    (h : List.Forall₂ loose.Built hs hs') :
    Tandem X Whatever (keepResult name hs) (keepResult name hs') := by
  rintro p p' hp a q b q' ⟨⟩ ⟨⟩
  refine ⟨trivial, hp.editor, hp.counts, hp.literals, .cons ⟨rfl, h⟩ hp.results,
    hx.steady hp.beside ?_ ?_⟩
  · exact .of_tree rfl rfl rfl
  · exact .of_tree rfl rfl rfl

/-- Whatever nodes two passes work on, their books go on alike. -/
theorem Companion.lockstep : Lockstep loose (fun _ _ => True) (Tandem X) where
  nil := trivial
  cons := fun _ _ => trivial
  append := fun _ _ => trivial
  dedup := fun _ => trivial
  pure := .pure
  throw := .throw
  bind := .bind
  editor := by
    rintro p p' hp a q b q' ⟨⟩ ⟨⟩
    exact ⟨hp.editor, hp⟩
  tag := tandem_tag hx
  result? := by
    rintro name p p' hp a q b q' ⟨⟩ ⟨⟩
    exact ⟨lookup_related hp.results name, hp⟩
  keepResult := tandem_keepResult hx
  nodeFor := fun settings _ _ => tandem_nodeFor hx _ _ settings
  activate := fun _ => .of_quiet hx (quiet_activate _) (quiet_activate _)
  wire := fun _ _ _ => .of_quiet hx (quiet_wire _ _ _) (quiet_wire _ _ _)
  wireAll := fun _ _ => .of_quiet hx (quiet_wireAll _ _) (quiet_wireAll _ _)
  readOutput := fun _ => tandem_readOutput hx _ _
  hold := fun x _ => .of_quiet hx (quiet_hold _ x) (quiet_hold _ x)
  frame := fun _ => tandem_frame hx _ _ _ _

end Steps

section Inputs

theorem companion_true : Companion fun _ _ => True := ⟨fun _ _ _ => trivial, fun _ _ _ => trivial⟩

theorem input_cases {name : String} {kind : Kind} {h : Handle} {p q : Pass}
    (hrun : input name kind none p = (.ok h, q)) :
    (p.tree.editor.boundaryType? kind).isSome ∧ ∃ x t, t.editor = p.tree.editor ∧
      h = ⟨kind, p.counts.get kind, ⟨.groupInput, x⟩, some name⟩ ∧
      q = { p with tree := t, counts := p.counts.bump kind } := by
  rw [input_run] at hrun
  unfold Editor.boundaryType?
  cases hk : kind.socketType? with
  | none =>
    rw [hk] at hrun
    cases hrun
  | some type =>
    rw [hk] at hrun
    dsimp only at hrun
    have heditor := Tree.editor_socketFor .input name type p.tree
    rcases hfor : Tree.socketFor .input name type p.tree with ⟨_ | x, t⟩
    · rw [hfor] at hrun
      cases hrun
    · rw [hfor] at hrun heditor
      cases hrun
      exact ⟨Tree.adjust?_of_socketFor hfor, x, t, heditor, rfl, rfl⟩

theorem tandem_input (name : String) (kind : Kind) :
    Tandem (fun _ _ => True) loose.Handles (input name kind none) (input name kind none) := by
  intro p p' hp a q b q' h h'
  obtain ⟨-, x, t, ht, rfl, rfl⟩ := input_cases h
  obtain ⟨-, x', t', ht', rfl, rfl⟩ := input_cases h'
  refine ⟨⟨rfl, ?_, rfl, loose_ref _ _⟩, ht'.trans (hp.editor.trans ht.symm), ?_, hp.literals,
    hp.results, trivial⟩
  · rw [hp.counts]
  · rw [hp.counts]

theorem tandem_openInputs (unknowns : List String) (options : Options) :
    Tandem (fun _ _ => True) (List.Forall₂ loose.InputEntries) (openInputs unknowns options)
      (openInputs unknowns options) := by
  have declare : ∀ {known known' : Inputs}, List.Forall₂ loose.InputEntries known known' →
      Tandem (fun _ _ => True) (List.Forall₂ loose.InputEntries)
        (declareInputs options known unknowns) (declareInputs options known' unknowns) := by
    induction unknowns with
    | nil => exact fun hk => .pure hk
    | cons name rest ih =>
      exact fun hk => .bind (tandem_input name _) fun _ _ hh => ih (.cons ⟨rfl, hh⟩ hk)
  refine .bind (declare .nil) fun inputs inputs' hi =>
    .bind (R := Whatever) ?_ fun _ _ _ => .pure hi
  rintro p p' hp a q b q' ⟨⟩ ⟨⟩
  refine ⟨trivial, ?_, hp.counts, hp.literals, hp.results, trivial⟩
  exact (Tree.editor_keepInputs _ _).trans (hp.editor.trans (Tree.editor_keepInputs _ _).symm)

/-- Inputs of variables that a pass has declared have types on the boundary. -/
theorem boundaryType?_of_openInputs {unknowns : List String} {options : Options} {inputs : Inputs}
    {p q : Pass} (h : openInputs unknowns options p = (.ok inputs, q)) :
    q.tree.editor = p.tree.editor ∧
      ∀ name ∈ unknowns, (p.tree.editor.boundaryType? (options.kindOf name)).isSome := by
  obtain ⟨_, p₁, hdeclare, hkeep⟩ := bind_eq_ok.mp h
  cases hkeep
  have key : ∀ {known : Inputs} {p : Pass},
      declareInputs options known unknowns p = (.ok inputs, p₁) →
      p₁.tree.editor = p.tree.editor ∧
        ∀ name ∈ unknowns, (p.tree.editor.boundaryType? (options.kindOf name)).isSome := by
    clear hdeclare h
    induction unknowns with
    | nil =>
      rintro known p ⟨⟩
      exact ⟨rfl, by simp⟩
    | cons name rest ih =>
      intro known p h
      obtain ⟨g, p₂, hinput, hrest⟩ := bind_eq_ok.mp h
      obtain ⟨htype, x, t, ht, -, rfl⟩ := input_cases hinput
      obtain ⟨heditor, htypes⟩ := ih hrest
      refine ⟨heditor.trans ht, List.forall_mem_cons.mpr ⟨htype, fun n hn => ?_⟩⟩
      rw [← ht]
      exact htypes n hn
  obtain ⟨heditor, htypes⟩ := key hdeclare
  exact ⟨(Tree.editor_keepInputs _ _).trans heditor, htypes⟩

end Inputs

end Pass

end FormulaGraph
