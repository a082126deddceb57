import FormulaGraph.Proofs.Graph.BoundaryKeeps
import FormulaGraph.Proofs.Pass.Wiring

/-!
Edits at the group output, and the removal of nodes that are not wanted. All
other nodes are kept with what feeds them.
-/

namespace FormulaGraph.Tree

open Run

variable {id : NodeId} {t t' : Tree} {x : SocketId} {a : SocketRef} {D : NodeId → Prop}

theorem Grouped.modifyNode (hg : t.Grouped) {f : Node → Node} (hid : ∀ n, (f n).id = n.id)
    (hname : ∀ n, (f n).name = n.name) (hin : ∀ n, (f n).inputs = n.inputs)
    (hout : ∀ n, (f n).outputs = n.outputs) :
    (t.modifyNode id f).Grouped := by
  obtain ⟨i, hi, hi', hin'⟩ := hg.input
  obtain ⟨o, ho, ho', hon'⟩ := hg.output
  refine ⟨⟨_, by rw [node?_modifyNode hid, hi]; rfl, ?_, ?_⟩,
    ⟨_, by rw [node?_modifyNode hid, ho]; rfl, ?_, ?_⟩, hg.distinct⟩
  · dsimp only
    split
    · rw [hout]
      exact hi'
    · exact hi'
  · dsimp only
    split
    · rw [hname]
      exact hin'
    · exact hin'
  · dsimp only
    split
    · rw [hin]
      exact ho'
    · exact ho'
  · dsimp only
    split
    · rw [hname]
      exact hon'
    · exact hon'

theorem keeps_reconnected (hs : t.Sane) (hx : t.HasInput ⟨id, x⟩) (hD : ¬D id) :
    Keeps D t ((t.disconnect x).addLink a ⟨id, x⟩) :=
  keeps_of_feeds hs hx hD rfl fun _ hy => by rw [feedOf?_reconnected (b := ⟨id, x⟩), if_neg hy]

structure Prunes (ids : List NodeId) (t t' : Tree) : Prop where
  sane : t'.Sane
  editor : t'.editor = t.editor
  boundary : t'.boundary = t.boundary
  active : ∀ a, t.active = some a → a ∉ ids → t'.active = some a
  outline : t'.outline = (t.outline.filter (·.id ∉ ids)).map (Outline.without ids)
  keeps : ∀ D : NodeId → Prop, (∀ id ∈ ids, ¬D id) → Keeps D t t'

theorem prunes_removeNode (hs : t.Sane) (hg : id.isGroup = false) :
    Prunes [id] t (t.removeNode id) := by
  have heq := removeNode_eq (t := t) hg
  refine ⟨hs.removeNode id, by rw [heq], by rw [heq], ?_, outline_removeNode hg, ?_⟩
  · intro a ha hne
    rw [heq]
    have : a ≠ id := by simpa using hne
    simp [ha, this]
  · intro D hD
    exact keeps_removeNode hs (hD id List.mem_cons_self)

theorem prunes_foldl {ids : List NodeId} (hs : t.Sane) (hg : ∀ id ∈ ids, id.isGroup = false) :
    Prunes ids t (ids.foldl removeNode t) := by
  induction ids generalizing t with
  | nil =>
    exact ⟨hs, rfl, rfl, fun a ha _ => ha, outline_foldl_removeNode hg, fun D _ => .refl⟩
  | cons id ids ih =>
    have h₁ := prunes_removeNode hs (hg id List.mem_cons_self)
    have h₂ := ih h₁.sane fun i hi => hg i (List.mem_cons_of_mem _ hi)
    refine ⟨h₂.sane, h₂.editor.trans h₁.editor, h₂.boundary.trans h₁.boundary, ?_,
      outline_foldl_removeNode hg, ?_⟩
    · intro a ha hne
      rw [List.mem_cons, not_or] at hne
      exact h₂.active a (h₁.active a ha (by simpa using hne.1)) hne.2
    · intro D hD
      exact (h₁.keeps D fun i hi =>
        hD i (by rw [List.mem_singleton.mp hi]; exact List.mem_cons_self)).trans
        (h₂.keeps D fun i hi => hD i (List.mem_cons_of_mem _ hi)) fun _ h => h

structure Outward (t t' : Tree) : Prop where
  sane : t'.Sane
  grouped : t'.Grouped
  editor : t'.editor = t.editor
  active : t'.active = t.active
  inputs : t'.socketsOn .input = t.socketsOn .input
  outline : t'.outline = t.outline
  sink : ∀ n, t.node? .groupOutput = some n → ∃ n', t'.node? .groupOutput = some n' ∧
    n'.outputs = n.outputs
  keeps : ∀ D : NodeId → Prop, ¬D .groupOutput → Keeps D t t'

namespace Outward

theorem trans {t'' : Tree} (h : Outward t t') (h' : Outward t' t'') : Outward t t'' where
  sane := h'.sane
  grouped := h'.grouped
  editor := h'.editor.trans h.editor
  active := h'.active.trans h.active
  inputs := h'.inputs.trans h.inputs
  outline := h'.outline.trans h.outline
  sink := by
    intro n hn
    obtain ⟨n', hn', ho⟩ := h.sink n hn
    obtain ⟨n'', hn'', ho'⟩ := h'.sink n' hn'
    exact ⟨n'', hn'', ho'.trans ho⟩
  keeps := fun D hD => (h.keeps D hD).trans (h'.keeps D hD) fun _ h => h

theorem refl (hs : t.Sane) (hg : t.Grouped) : Outward t t :=
  ⟨hs, hg, rfl, rfl, rfl, rfl, fun n hn => ⟨n, hn, rfl⟩, fun _ _ => .refl⟩

theorem of_links {t' : Tree} (hg : t.Grouped) (hs : t'.Sane) (hn : t'.nodes = t.nodes)
    (hb : t'.boundary = t.boundary) (he : t'.editor = t.editor) (ha : t'.active = t.active)
    (hk : ∀ D : NodeId → Prop, ¬D .groupOutput → Keeps D t t') : Outward t t' := by
  have hnode : ∀ id, t'.node? id = t.node? id := by
    intro id
    unfold node?
    rw [hn]
  have hshown : ∀ side, t'.shownInside side = t.shownInside side := by
    intro side
    unfold shownInside socketsOn
    rw [hb]
  refine ⟨hs, ⟨?_, ?_, by rw [hb]; exact hg.distinct⟩, he, ha, ?_, ?_,
    fun n hn => ⟨n, by rw [hnode, hn], rfl⟩, hk⟩
  · rw [hnode, hshown]
    exact hg.input
  · rw [hnode, hshown]
    exact hg.output
  · unfold socketsOn
    rw [hb]
  · unfold Tree.outline
    rw [hn]

theorem of_reboundary {X : SocketId → Prop} (hr : Reboundary X t t') (hs : t.Sane) (hg : t.Grouped)
    (hin : t'.socketsOn .input = t.socketsOn .input)
    (hX : ∀ x, X x → t.supply ≤ x.index ∨ t.HasInput ⟨.groupOutput, x⟩) : Outward t t' where
  sane := hr.sane
  grouped := hr.grouped
  editor := hr.editor
  active := hr.active
  inputs := hin
  outline := hr.outline hs
  sink := by
    intro n hn
    refine ⟨t'.mirrored n, by rw [hr.node?, hn]; rfl, ?_⟩
    have hid := id_of_node? hn
    unfold mirrored
    rw [if_neg (by rw [hid]; exact groupOutput_ne_groupInput), if_pos hid]
  keeps := fun D hD => hr.keeps hs hg hin hX hD

theorem repositioned (hs : t.Sane) (hg : t.Grouped) (position : Node → Point) :
    Outward t (t.modifyNode .groupOutput fun n => { n with position := position n }) := by
  have hlocal : Local .groupOutput t
      (t.modifyNode .groupOutput fun n => { n with position := position n }) :=
    .modifyNode (fun _ => rfl) (fun _ => ⟨rfl, rfl, rfl, rfl⟩) fun _ => ⟨rfl, rfl, rfl⟩
  exact {
    sane := hs.modifyNode (fun _ => rfl) fun _ => ⟨rfl, rfl, rfl, rfl⟩
    grouped := hg.modifyNode (fun _ => rfl) (fun _ => rfl) (fun _ => rfl) fun _ => rfl
    editor := rfl
    active := rfl
    inputs := rfl
    outline := hlocal.outline hs
    sink := by
      intro n hn
      refine ⟨_, by rw [node?_modifyNode (by intro n; rfl), hn]; rfl, ?_⟩
      dsimp only
      split <;> rfl
    keeps := fun D hD => hlocal.keeps hs hD }

end Outward

def Assigned (t : Tree) (s : Socket) : Operand → Prop
  | .handle h => h.kind ≠ .output ∧ t.sourceOf? s.id = some h.socket
  | .literal l => t.feedOf? s.id = none ∧ s.type.hasDefault = true ∧
      ∃ value, l.toValue? = some value ∧ s.default = value.convert s.type

theorem Assigned.congr {s : Socket} {v : Operand} (h : t.Assigned s v)
    (hf : t'.sourceOf? s.id = t.sourceOf? s.id) : t'.Assigned s v := by
  cases v with
  | handle g => exact ⟨h.1, hf.trans h.2⟩
  | literal l =>
    refine ⟨?_, h.2⟩
    have : t'.sourceOf? s.id = none := by
      rw [hf, sourceOf?, h.1]
      rfl
    rwa [sourceOf?, Option.map_eq_none_iff] at this

end FormulaGraph.Tree
