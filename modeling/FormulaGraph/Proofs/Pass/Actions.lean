import FormulaGraph.Proofs.Graph.HostedBoundary
import FormulaGraph.Proofs.Pass.Amendments
import FormulaGraph.Proofs.Typed

/-!
What a tree keeps under every edit is kept by passes, whether they succeed or
not: by compiling, and by passes made of single operations, as a host makes them,
with handles of any origin. Tags find no group nodes, so a pass touches those only
through the boundary.
-/

namespace FormulaGraph

open Run Relation

variable {S : SocketId → Prop} {N : Side → String → Prop} {t t' : Tree}

namespace Tree

namespace Hosted

variable (h : t.Hosted)
include h

theorem framedTree {id : NodeId} (hc : t.contains id = true) (label : String)
    (members : List NodeId) : (Pass.framedTree t id label members).Hosted := by
  have enclose : ∀ (roots : List NodeId) (t : Tree), t.Hosted → t.contains id = true →
      (roots.foldl (fun t root => t.setParent id root) t).Hosted := by
    intro roots
    induction roots with
    | nil => exact fun _ h _ => h
    | cons root roots ih =>
      intro t h hc
      refine ih _ (h.setParent hc) ?_
      show (t.setParent id root).contains id = true
      rw [Tree.setParent, Tree.contains_modifyNode]
      · exact hc
      · exact fun _ => rfl
  refine enclose _ _ (h.redecorate (fun _ => rfl) (fun _ => ⟨rfl, rfl, rfl⟩) fun _ => rfl) ?_
  rw [Tree.contains_modifyNode]
  · exact hc
  · exact fun _ => rfl

theorem touch {id : NodeId} (hg : id.isGroup = false) (touch : Pass.Touch) :
    (t.modifyNode id touch.apply).Hosted := by
  cases touch with
  | settings entries =>
    exact h.redecorate (fun _ => rfl) (fun _ => ⟨rfl, rfl, rfl⟩) fun _ => rfl
  | input slot value =>
    refine h.restock hg (fun _ => rfl) (fun n => ?_) fun _ => rfl
    have hm := Node.Matches.setInputDefault n slot value
    exact ⟨hm.inputs, hm.outputs⟩
  | output value position =>
    refine h.restock hg (fun _ => rfl) (fun n => ?_) fun _ => rfl
    have hm := Node.Matches.setOutputDefault n 0 value
    exact ⟨hm.inputs, hm.outputs⟩
  | move position =>
    exact h.redecorate (fun _ => rfl) (fun _ => ⟨rfl, rfl, rfl⟩) fun _ => rfl

theorem besideActive : (Pass.besideActive t).Hosted := by
  unfold Pass.besideActive
  split
  · exact h
  · exact h.redecorate (fun _ => rfl) (fun _ => ⟨rfl, rfl, rfl⟩) fun _ => rfl

theorem amend (ha : Pass.Amends S N t t') : t'.Hosted := by
  cases ha with
  | activate id => exact h.setActive id
  | make type setup => exact h.addNode
  | remove id => exact h.removeNode id
  | touch id hg touch => exact h.touch hg touch
  | settle => exact h.besideActive
  | frame id _ hc label members => exact h.framedTree hc label members
  | relink source target _ => exact h.reconnect
  | unlink x _ => exact h.disconnect x
  | store x _ value => exact h.setSocketDefault value
  | ask side name _ type => exact h.socketFor
  | keep _ names => exact h.keepInputs names

theorem steps (hs : ReflTransGen (Pass.Amends S N) t t') : t'.Hosted := by
  induction hs with
  | refl => exact h
  | tail _ hstep ih => exact ih.amend hstep

theorem rooted_start : (Pass.start t).Rooted where
  supply := by
    obtain ⟨n, hn, -⟩ := h.grouped.output
    have hlt := h.sane.nodesBelow n (mem_of_node? hn)
    rwa [id_of_node? hn] at hlt
  index := by
    intro e he hg
    obtain ⟨n, hn, htag, rfl⟩ := Pass.mem_tagIndex.mp he
    rw [h.grouped.not_group (node?_of_mem h.sane.nodes hn) htag] at hg
    cases hg

end Hosted

abbrev Amends : Tree → Tree → Prop := Pass.Amends (fun _ => True) fun _ _ => True

theorem realize_steps {t : Tree} (h : t.Hosted) (unknowns : List String) (term : Term)
    (options : Options) : ReflTransGen Amends t (realize unknowns term options t).2 := by
  rw [realize_run]
  split
  · exact .refl
  · have hmakes := Pass.makes_synthesis (S := fun _ => True) (N := fun _ _ => True)
      (fun _ => trivial) (fun _ _ => trivial) unknowns term options (Pass.start t)
    exact .head (.activate (some .groupInput)) (hmakes.edits trivial h.rooted_start).2

namespace Hosted

theorem realize (h : t.Hosted) (unknowns : List String) (term : Term) (options : Options) :
    (realize unknowns term options t).2.Hosted := h.steps (realize_steps h unknowns term options)

theorem compile (h : t.Hosted) (text : String) (options : Options) :
    (compile text options t).2.Hosted := by
  rw [compile_run]
  split
  · exact h.realize _ _ _
  · exact h

end Hosted

end Tree

namespace Pass

section Components

theorem makes_requireVector (use : VectorUse) (v : Handle) : Edits S N (requireVector use v) := by
  unfold requireVector
  split
  · exact .pure _
  · exact .throw (.inr trivial)

theorem makes_requireComponent (value : Operand) : Edits S N (requireComponent value) := by
  unfold requireComponent
  split
  · exact .pure _
  · exact .throw (.inr trivial)

theorem makes_axis (index : Int) : Edits S N (axis index) := by
  unfold axis
  split
  · exact .pure _
  · split
    · exact .pure _
    · split
      · exact .pure _
      · exact .throw (.inr trivial)

theorem makes_components (v : Handle) : Edits S N (components v) :=
  .bind (makes_requireVector _ _) fun _ => makes_separate _

theorem makes_component (v : Handle) (index : Int) : Edits S N (component v index) := by
  refine .bind (makes_requireVector _ _) fun _ => .bind (makes_axis _) fun axis => ?_
  exact .bind (makes_components _) fun _ => .pure _

theorem makes_collect (u : Update) (updates : List (Int × Operand)) :
    Edits S N (collect u updates) := by
  induction updates generalizing u with
  | nil => exact .pure _
  | cons entry rest ih =>
    refine .bind (makes_axis _) fun axis => .bind (makes_requireComponent _) fun _ => ?_
    exact ih _

theorem makes_combine (x y z : Operand) : Edits S N (combine x y z) :=
  .bind (makes_tag _ _) fun _ => makes_build _ _ rfl

theorem makes_replaceSome (v : Handle) (updates : List (Int × Operand)) :
    Edits S N (replaceSome v updates) := by
  refine .bind (makes_requireVector _ _) fun _ => .bind (makes_collect _ _) fun update => ?_
  refine .bind (makes_tag _ _) fun frameTag => ?_
  have enclose : ∀ (combined : Handle) (separated : List NodeId), Edits S N (do
      frame frameTag "Vector Mutation" (separated ++ [combined.node])
      return combined) := fun _ _ => .bind (makes_frame _ _ _) fun _ => .pure _
  dsimp only
  split
  · exact .bind (makes_combine _ _ _) fun combined => .bind (.pure _) fun _ => enclose _ _
  · refine .bind (makes_separate _) fun parts => ?_
    exact .bind (makes_combine _ _ _) fun combined => .bind (.pure _) fun _ => enclose _ _

theorem makes_requireComponents (values : List Operand) : Edits S N (requireComponents values) := by
  induction values with
  | nil => exact .pure _
  | cons value rest ih => exact .bind (makes_requireComponent _) fun _ => ih

theorem makes_replaceEvery (v : Handle) (values : List Operand) :
    Edits S N (replaceEvery v values) := by
  refine .bind (makes_requireVector _ _) fun _ => ?_
  split
  · exact .bind (makes_requireComponents _) fun _ => makes_replaceSome _ _
  · exact .throw (.inr trivial)

end Components

inductive Action where
  | input (name : String) (kind : Kind) (default : Option Literal)
  | output (name : String) (kind : Kind)
  | assign (target : Handle) (value : Operand)
  | call (f : Function) (args : List Operand)
  | constant (x : Numeric.Double)
  | components (v : Handle)
  | component (v : Handle) (index : Int)
  | replaceSome (v : Handle) (updates : List (Int × Operand))
  | replaceEvery (v : Handle) (values : List Operand)
  | frame (tag label : String) (members : List NodeId)

def Action.perform (p : Pass) : Action → Pass
  | input name kind default => (Pass.input name kind default p).2
  | output name kind => (Pass.output name kind p).2
  | assign target value => (Pass.assign target value p).2
  | call f args => (Pass.call f args p).2
  | constant x => (Pass.constant x p).2
  | components v => (Pass.components v p).2
  | component v index => (Pass.component v index p).2
  | replaceSome v updates => (Pass.replaceSome v updates p).2
  | replaceEvery v values => (Pass.replaceEvery v values p).2
  | frame tag label members => (Pass.frame tag label members p).2

section Actions

variable (hS : ∀ x, S x) (hN : ∀ side name, N side name) {p : Pass} (hp : p.Rooted)
include hS hN hp

theorem Action.perform_makes (a : Action) :
    (a.perform p).Rooted ∧ ReflTransGen (Amends S N) p.tree (a.perform p).tree := by
  have run : ∀ {α : Type} {m : PassM α}, Edits S N m →
      (m p).2.Rooted ∧ ReflTransGen (Amends S N) p.tree (m p).2.tree :=
    fun hm => (hm p).edits trivial hp
  cases a with
  | input name kind default => exact run (makes_input (hN .input name) (fun _ _ => hS) kind)
  | output name kind => exact run (makes_output (hN _ _) kind)
  | assign target value => exact run (makes_assign (hS _) value)
  | call f args =>
    exact run (compositional_makes.call fun _ _ _ => Makes.throw (.inr trivial))
  | constant x => exact run (makes_constant x)
  | components v => exact run (makes_components v)
  | component v index => exact run (makes_component v index)
  | replaceSome v updates => exact run (makes_replaceSome v updates)
  | replaceEvery v values => exact run (makes_replaceEvery v values)
  | frame tag label members => exact run (makes_frame tag label members)

theorem perform_all_makes (actions : List Action) :
    ReflTransGen (Amends S N) p.tree (actions.foldl Action.perform p).tree := by
  induction actions generalizing p with
  | nil => exact .refl
  | cons a actions ih =>
    obtain ⟨hrooted, hsteps⟩ := a.perform_makes hS hN hp
    exact hsteps.trans (ih hrooted)

end Actions

end Pass

namespace Tree

/-- Trees that passes have made from an empty one, whatever became of the single
passes: formulas built or typed, and operations in any order. -/
inductive Passed : Tree → Prop where
  | empty (editor : Editor) : Passed (empty editor)
  | actions {t : Tree} (h : Passed t) (actions : List Pass.Action) :
      Passed (actions.foldl Pass.Action.perform (Pass.start t)).tree
  | realize {t : Tree} (h : Passed t) (unknowns : List String) (term : Term) (options : Options) :
      Passed (realize unknowns term options t).2
  | compile {t : Tree} (h : Passed t) (text : String) (options : Options) :
      Passed (compile text options t).2

/-- Such a tree comes from an empty one by the edits of passes. -/
theorem Passed.steps {t : Tree} (h : Passed t) :
    ∃ editor, ReflTransGen Amends (Tree.empty editor) t := by
  have hosted : ∀ {editor t}, ReflTransGen Amends (Tree.empty editor) t → t.Hosted :=
    fun hsteps => (hosted_empty _).steps hsteps
  induction h with
  | empty editor => exact ⟨editor, .refl⟩
  | actions _ actions ih =>
    obtain ⟨editor, hsteps⟩ := ih
    refine ⟨editor, hsteps.trans (.head (.activate (some .groupInput)) ?_)⟩
    exact Pass.perform_all_makes (fun _ => trivial) (fun _ _ => trivial)
      (hosted hsteps).rooted_start actions
  | realize _ unknowns term options ih =>
    obtain ⟨editor, hsteps⟩ := ih
    exact ⟨editor, hsteps.trans (realize_steps (hosted hsteps) unknowns term options)⟩
  | compile _ text options ih =>
    obtain ⟨editor, hsteps⟩ := ih
    refine ⟨editor, hsteps.trans ?_⟩
    rw [compile_run]
    split
    · exact realize_steps (hosted hsteps) _ _ _
    · exact .refl

end Tree

end FormulaGraph
