import FormulaGraph.Proofs.Pass.Framing
import FormulaGraph.Proofs.Pass.Relay

/-!
The books of a pass: the numbers of handles and literals, and the handles that
tags have given. Wiring and framing leave them alone, and a tag that has given
handles gives the same ones as long as the pass goes on.
-/

namespace FormulaGraph

open Run

def Node.look (n : Node) : String × NodeType := (n.name, n.type)

theorem Tree.editor_removeNode (t : Tree) (id : NodeId) : (t.removeNode id).editor = t.editor := by
  unfold removeNode
  split <;> rfl

namespace Pass

variable {α β : Type} {p p' p'' : Pass} {m : PassM α} {f : α → PassM β}

/-- The nodes are those from before, edited at most. -/
structure Steady (p p' : Pass) : Prop where
  editor : p'.tree.editor = p.tree.editor
  index : p'.index = p.index
  created : p'.created = p.created
  supply : p.tree.supply ≤ p'.tree.supply
  looks : ∀ x, (p'.tree.node? x).map Node.look = (p.tree.node? x).map Node.look

namespace Steady

theorem trans (h : Steady p p') (h' : Steady p' p'') : Steady p p'' where
  editor := h'.editor.trans h.editor
  index := h'.index.trans h.index
  created := h'.created.trans h.created
  supply := Nat.le_trans h.supply h'.supply
  looks := fun x => (h'.looks x).trans (h.looks x)

theorem of_tree (ht : p'.tree = p.tree) (hi : p'.index = p.index) (hc : p'.created = p.created) :
    Steady p p' := by
  refine ⟨?_, hi, hc, ?_, fun x => ?_⟩ <;> rw [ht]

theorem modifyNode {id : NodeId} {f : Node → Node} (h : ∀ n, (f n).id = n.id ∧ (f n).look = n.look)
    (p : Pass) : Steady p { p with tree := p.tree.modifyNode id f } where
  editor := rfl
  index := rfl
  created := rfl
  supply := Nat.le_refl _
  looks := by
    intro x
    show ((p.tree.modifyNode id f).node? x).map Node.look = _
    rw [Tree.node?_modifyNode fun n => (h n).1, Option.map_map]
    refine Option.map_congr fun n _ => ?_
    simp only [Function.comp_apply]
    split
    · exact (h n).2
    · rfl

end Steady

/-- Nothing is entered in the books. -/
structure Silent (p p' : Pass) : Prop where
  editor : p'.tree.editor = p.tree.editor
  counts : p'.counts = p.counts
  literals : p'.literals = p.literals
  results : p'.results = p.results

structure Quiet (p p' : Pass) : Prop extends Steady p p', Silent p p'

theorem Quiet.refl : Quiet p p := ⟨.of_tree rfl rfl rfl, rfl, rfl, rfl⟩

theorem Quiet.trans (h : Quiet p p') (h' : Quiet p' p'') : Quiet p p'' :=
  ⟨h.toSteady.trans h'.toSteady, h'.counts.trans h.counts, h'.literals.trans h.literals,
    h'.results.trans h.results⟩

def Leaves (S : Pass → Pass → Prop) (m : PassM α) : Prop :=
  ∀ p a p', m p = (.ok a, p') → S p p'

namespace Leaves

variable {S R : Pass → Pass → Prop}

theorem pure (refl : ∀ p, S p p) (a : α) : Leaves S (pure a : PassM α) := by
  rintro p b p' ⟨⟩
  exact refl p

theorem throw (fault : Fault) : Leaves S (throw fault : PassM α) := by
  rintro p a p' ⟨⟩

theorem bind (trans : ∀ {p q r}, S p q → S q r → S p r) (hm : Leaves S m)
    (hf : ∀ a, Leaves S (f a)) : Leaves S (m >>= f) := by
  intro p b p'' h
  obtain ⟨a, p', h₁, h₂⟩ := bind_eq_ok.mp h
  exact trans (hm p a p' h₁) (hf a p' b p'' h₂)

theorem mono (hm : Leaves S m) (h : ∀ {p q}, S p q → R p q) : Leaves R m :=
  fun p a p' hrun => h (hm p a p' hrun)

end Leaves

section Quiet

theorem quiet_modifyTree {g : Tree → Tree} (h : ∀ p : Pass, Steady p { p with tree := g p.tree }) :
    Leaves Quiet (modifyTree g) := by
  rintro p a p' ⟨⟩
  exact ⟨h p, rfl, rfl, rfl⟩

theorem quiet_activate (id : NodeId) : Leaves Quiet (activate id) :=
  quiet_modifyTree fun _ => ⟨rfl, rfl, rfl, Nat.le_refl _, fun _ => rfl⟩

theorem quiet_reconnect (source target : SocketRef) :
    Leaves Quiet (edit .link (Tree.reconnect source target)) := by
  intro p a p' h
  rw [edit_reconnect] at h
  split at h
  · cases h
  · cases h
    exact ⟨⟨rfl, rfl, rfl, Nat.le_succ _, fun _ => rfl⟩, rfl, rfl, rfl⟩

theorem quiet_getTree : Leaves Quiet getTree := by
  rintro p a p' ⟨⟩
  exact .refl

theorem quiet_wire (id : NodeId) (slot : Nat) (o : Operand) : Leaves Quiet (wire id slot o) := by
  have quiet : ∀ u, Leaves Quiet (pure u : PassM Unit) := .pure fun _ => .refl
  refine .bind .trans quiet_getTree fun t => ?_
  split
  · exact .throw _
  · next input _ =>
    cases o with
    | handle h =>
      have link : Leaves Quiet
          (if (t.feedOf? input.id).map (·.source) ≠ some h.socket then
            edit .link (Tree.reconnect h.socket ⟨id, input.id⟩) else pure ()) := by
        split
        · exact quiet_reconnect _ _
        · exact quiet _
      dsimp only
      split
      · exact .bind .trans (.throw _) fun _ => link
      · exact link
    | literal l =>
      dsimp only
      split
      · exact .throw _
      · refine .bind .trans (quiet_modifyTree fun _ => ?_) fun _ => ?_
        · exact ⟨rfl, rfl, rfl, Nat.le_refl _, fun _ => rfl⟩
        · split
          · exact quiet_modifyTree (.modifyNode fun _ => ⟨rfl, rfl⟩)
          · exact quiet _

theorem quiet_wireAll (id : NodeId) (inputs : List (Nat × Operand)) :
    Leaves Quiet (wireAll id inputs) := by
  induction inputs with
  | nil => exact .pure (fun _ => .refl) _
  | cons entry rest ih => exact .bind .trans (quiet_wire _ _ _) fun _ => ih

end Quiet

section Silent

theorem silent_makeNode (tag : String) (type : NodeType) (settings : List (String × String)) :
    Leaves Silent (makeNode tag type settings) := by
  intro p a p' h
  rw [makeNode_run] at h
  split at h
  · cases h
    exact ⟨by rw [made, Tree.addNode_eq], rfl, rfl, rfl⟩
  · cases h

theorem silent_nodeFor (tag : String) (type : NodeType) (settings : List (String × String)) :
    Leaves Silent (nodeFor tag type settings) := by
  intro p a p' h
  rw [nodeFor_run] at h
  have make := fun q => silent_makeNode tag type settings q a p'
  split at h
  · exact make p h
  · split at h
    · have hmade := make _ h
      exact ⟨hmade.editor, hmade.counts, hmade.literals, hmade.results⟩
    · split at h
      · cases h
        exact ⟨rfl, rfl, rfl, rfl⟩
      · have hmade := make _ h
        exact ⟨hmade.editor.trans (Tree.editor_removeNode _ _), hmade.counts, hmade.literals,
          hmade.results⟩

/-- Framing nodes, once there is a frame. -/
theorem steady_framed (p : Pass) (id : NodeId) (label : String) (members : List NodeId)
    (groups : List (NodeId × List NodeId)) :
    Steady p { p with tree := framedTree p.tree id label members, groups } := by
  let position := (members.head?.bind p.tree.node?).map (·.position)
  have hcaption : Steady p { p with tree := p.tree.modifyNode id (captioned label position) } := by
    refine .modifyNode ?_ p
    exact fun _ => ⟨rfl, rfl⟩
  have hflat : (framedTree p.tree id label members).flat =
      (p.tree.modifyNode id (captioned label position)).flat := flat_framedTree _ _ _ _
  refine ⟨show (framedTree p.tree id label members).flat.editor = _ by rw [hflat]; rfl, rfl, rfl,
    Nat.le_of_eq (show _ = (framedTree p.tree id label members).flat.supply by rw [hflat]; rfl),
    fun x => ?_⟩
  have hbare := congrArg (Option.map Node.look) (Tree.bare?_of_flat hflat x)
  simp only [Tree.bare?, Option.map_map] at hbare
  exact hbare.trans (hcaption.looks x)

theorem silent_frame (tag label : String) (members : List NodeId) :
    Leaves Silent (frame tag label members) := by
  intro p a p' h
  obtain ⟨id, p₁, h₁, -⟩ := bind_eq_ok.mp h
  rw [frame_run h₁] at h
  cases h
  have hf := silent_nodeFor _ _ _ p id p₁ h₁
  exact ⟨(steady_framed p₁ id label members p₁.groups).editor.trans hf.editor, hf.counts,
    hf.literals, hf.results⟩

end Silent

/-- Tags that have given handles go on giving them. -/
structure Remembers (p p' : Pass) : Prop where
  editor : p'.tree.editor = p.tree.editor
  results : ∀ tag h hs, ¬Tag.IsSeparation tag → p.results.lookup tag = some (h :: hs) →
    p'.results.lookup tag = some (h :: hs)

namespace Remembers

theorem refl : Remembers p p := ⟨rfl, fun _ _ _ _ h => h⟩

theorem trans (h : Remembers p p') (h' : Remembers p' p'') : Remembers p p'' :=
  ⟨h'.editor.trans h.editor, fun tag g gs ht hg =>
    h'.results tag g gs ht (h.results tag g gs ht hg)⟩

theorem of_results (he : p'.tree.editor = p.tree.editor) (hr : p'.results = p.results) :
    Remembers p p' := ⟨he, fun _ _ _ _ h => hr ▸ h⟩

theorem keep {tag : String} {handles : List Handle} (he : p'.tree.editor = p.tree.editor)
    (hr : p'.results = (tag, handles) :: p.results)
    (hnew : Tag.IsSeparation tag ∨ ∀ h hs, p.results.lookup tag ≠ some (h :: hs)) :
    Remembers p p' := by
  refine ⟨he, fun tag' h hs ht hl => ?_⟩
  have hne : tag' ≠ tag := by
    rintro rfl
    rcases hnew with hs' | hnew
    · exact ht hs'
    · exact hnew h hs hl
  rw [hr, List.lookup_cons, beq_false_of_ne hne]
  exact hl

theorem of_silent (h : Silent p p') : Remembers p p' := of_results h.editor h.results

end Remembers

section Remembering

theorem leaves_readOutput (id : NodeId) (slot : Nat) (kind : Kind) :
    Leaves (fun p p' => p' = { p with counts := p.counts.bump kind })
      (readOutput id slot kind) := by
  intro p h p' hrun
  obtain ⟨-, -, -, -, -, hp'⟩ := readOutput_cases hrun
  exact hp'

theorem result?_cases {tag : String} {found : Option (List Handle)}
    (h : result? tag p = (.ok found, p')) : found = p.results.lookup tag ∧ p' = p := by
  cases h
  exact ⟨rfl, rfl⟩

/-- What has been built for a tag that had given nothing. -/
theorem remembers_build (tag : String) (plan : NodePlan) : Leaves Remembers (build tag plan) := by
  intro p h p' hrun
  obtain ⟨found, q, hlook, hbuild⟩ := bind_eq_ok.mp hrun
  obtain ⟨hfound, hq⟩ := result?_cases hlook
  subst hq
  split at hbuild
  · cases hbuild
    exact .refl
  · next hmiss =>
    obtain ⟨id, p₁, hnode, hwire⟩ := bind_eq_ok.mp hbuild
    obtain ⟨_, p₂, hactive, hwire⟩ := bind_eq_ok.mp hwire
    obtain ⟨_, p₃, hwired, hread⟩ := bind_eq_ok.mp hwire
    obtain ⟨g, p₄, houtput, hkeep⟩ := bind_eq_ok.mp hread
    cases hkeep
    have hsilent := silent_nodeFor _ _ _ q id p₁ hnode
    have hquiet := (quiet_activate id p₁ _ p₂ hactive).trans (quiet_wireAll id _ p₂ _ p₃ hwired)
    cases leaves_readOutput id _ _ p₃ h p₄ houtput
    exact .keep (hquiet.editor.trans hsilent.editor)
      (congrArg (List.cons _) (hquiet.results.trans hsilent.results))
      (.inr fun g gs hl => hmiss g gs (hfound.trans hl))

theorem remembers_constant (x : Numeric.Double) : Leaves Remembers (constant x) := by
  intro p h p' hrun
  obtain ⟨found, q, hlook, hbuild⟩ := bind_eq_ok.mp hrun
  obtain ⟨hfound, hq⟩ := result?_cases hlook
  subst hq
  split at hbuild
  · cases hbuild
    exact .refl
  · next hmiss =>
    obtain ⟨id, p₁, hnode, hhold⟩ := bind_eq_ok.mp hbuild
    obtain ⟨_, _, ⟨⟩, hhold⟩ := bind_eq_ok.mp hhold
    obtain ⟨_, _, ⟨⟩, hread⟩ := bind_eq_ok.mp hhold
    obtain ⟨g, p₂, houtput, hkeep⟩ := bind_eq_ok.mp hread
    cases hkeep
    have hsilent := silent_nodeFor _ _ _ q id p₁ hnode
    cases leaves_readOutput id _ _ _ h p₂ houtput
    exact .keep hsilent.editor (congrArg (List.cons _) hsilent.results)
      (.inr fun g gs hl => hmiss g gs (hfound.trans hl))

theorem remembers_tag (op : String) (args : List Operand) : Leaves Remembers (tag op args) := by
  rintro p a p' ⟨⟩
  exact .of_results rfl rfl

theorem remembers_separate (v : Operand) : Leaves Remembers (separate v) := by
  intro p xyz p' hrun
  obtain ⟨name, p₀, htag, hlook⟩ := bind_eq_ok.mp hrun
  have hname : Tag.IsSeparation name := by
    cases htag
    exact ⟨_, rfl⟩
  refine (remembers_tag _ _ p name p₀ htag).trans ?_
  obtain ⟨found, q, hlook, hsplit⟩ := bind_eq_ok.mp hlook
  obtain ⟨-, hq⟩ := result?_cases hlook
  subst hq
  split at hsplit
  · cases hsplit
    exact .refl
  · obtain ⟨id, p₁, hnode, hwire⟩ := bind_eq_ok.mp hsplit
    obtain ⟨_, p₂, hactive, hwire⟩ := bind_eq_ok.mp hwire
    obtain ⟨_, p₃, hwired, hread⟩ := bind_eq_ok.mp hwire
    obtain ⟨x, p₄, hx, hread⟩ := bind_eq_ok.mp hread
    obtain ⟨y, p₅, hy, hread⟩ := bind_eq_ok.mp hread
    obtain ⟨z, p₆, hz, hkeep⟩ := bind_eq_ok.mp hread
    cases hkeep
    have hsilent := silent_nodeFor _ _ _ q id p₁ hnode
    have hquiet := (quiet_activate id p₁ _ p₂ hactive).trans (quiet_wire id _ _ p₂ _ p₃ hwired)
    cases leaves_readOutput id _ _ p₃ x p₄ hx
    cases leaves_readOutput id _ _ _ y p₅ hy
    cases leaves_readOutput id _ _ _ z p₆ hz
    exact .keep (hquiet.editor.trans hsilent.editor)
      (congrArg (List.cons _) (hquiet.results.trans hsilent.results)) (.inl hname)

theorem remembers_kept {name : String} {m : PassM Handle}
    (hnew : ∀ h l, p.results.lookup name ≠ some (h :: l))
    (hm : ∀ a p', m p = (.ok a, p') → Remembers p p') (a : Handle) (p' : Pass)
    (h : unlessKept name m p = (.ok a, p')) : Remembers p p' := by
  obtain ⟨found, q, hlook, hmake⟩ := bind_eq_ok.mp h
  obtain ⟨hfound, rfl⟩ := result?_cases hlook
  split at hmake
  · exact absurd hfound.symm (hnew _ _)
  · obtain ⟨g, p₁, hmade, hkeep⟩ := bind_eq_ok.mp hmake
    cases hkeep
    have hmade := hm a p₁ hmade
    refine ⟨hmade.editor, fun tag h' hs ht hl => ?_⟩
    have hne : tag ≠ name := by
      rintro rfl
      exact hnew h' hs hl
    show ((name, [a]) :: p₁.results).lookup tag = _
    rw [List.lookup_cons, beq_false_of_ne hne]
    exact hmade.results tag h' hs ht hl

theorem compositional_remembers :
    Compositional fun p m => ∀ a p', m p = (.ok a, p') → Remembers p p' where
  idle {_ p m a} hm b p' h := by
    cases hm.symm.trans h
    exact .refl
  bind {_ _ p m f} hm hf b p'' h := by
    obtain ⟨a, p', h₁, h₂⟩ := bind_eq_ok.mp h
    exact (hm a p' h₁).trans (hf a p' h₁ b p'' h₂)
  lacking := fun _ => Leaves.throw _
  tag := remembers_tag
  kept := remembers_kept
  build := fun name plan _ => remembers_build name plan
  separate := remembers_separate
  constant := remembers_constant
  frame := fun name label members => (silent_frame name label members).mono .of_silent

end Remembering

end Pass

end FormulaGraph
