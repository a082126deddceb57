import FormulaGraph.Proofs.Graph.BoundaryEdits

/-!
What edits of a tree keep of some of its nodes. The frames around nodes do not
count. An input keeps its source if that is one of the nodes too, or if it has
none. Edits of sockets and links keep the outline of the tree: the names of its
nodes and the frames they are in.
-/

namespace FormulaGraph

variable {n : Node}

def Node.orphan (n : Node) : Node := { n with parent := none }

theorem Node.alike_of_orphan {m : Node} (h : n.orphan = m.orphan) : n.Alike m := by
  have hi : n.inputs = m.inputs := by
    show n.orphan.inputs = m.orphan.inputs
    rw [h]
  have ho : n.outputs = m.outputs := by
    show n.orphan.outputs = m.orphan.outputs
    rw [h]
  exact ⟨by rw [inputIds, hi, inputIds], by rw [outputIds, ho, outputIds], by rw [hi], by rw [ho]⟩

structure Outline where
  id : NodeId
  name : String
  parent : Option NodeId

def Node.outline (n : Node) : Outline := ⟨n.id, n.name, n.parent⟩

def Outline.without (ids : List NodeId) (o : Outline) : Outline :=
  { o with parent := o.parent.filter (· ∉ ids) }

namespace Tree

variable {id : NodeId}

def bare? (t : Tree) (id : NodeId) : Option Node := (t.node? id).map Node.orphan

structure Keeps (D : NodeId → Prop) (t t' : Tree) : Prop where
  nodes : ∀ id, D id → t'.bare? id = t.bare? id
  feeds : ∀ id n x, D id → t.node? id = some n → x ∈ n.inputIds →
    (∀ r, t.sourceOf? x = some r → D r.node) → t'.sourceOf? x = t.sourceOf? x

variable {D E : NodeId → Prop} {t t' t'' : Tree}

theorem node?_of_bare? (h : t'.bare? id = t.bare? id) (hn : t.node? id = some n) :
    ∃ n', t'.node? id = some n' ∧ n'.orphan = n.orphan := by
  unfold bare? at h
  rw [hn] at h
  obtain ⟨n', hn', ho⟩ := Option.map_eq_some_iff.mp h
  exact ⟨n', hn', ho⟩

namespace Keeps

theorem refl : Keeps D t t := ⟨fun _ _ => rfl, fun _ _ _ _ _ _ _ => rfl⟩

theorem trans (h : Keeps D t t') (h' : Keeps E t' t'') (hde : ∀ id, D id → E id) :
    Keeps D t t'' where
  nodes := fun id hd => (h'.nodes id (hde id hd)).trans (h.nodes id hd)
  feeds := by
    intro id n x hd hn hx hr
    obtain ⟨n', hn', ho⟩ := node?_of_bare? (h.nodes id hd) hn
    have hs := h.feeds id n x hd hn hx hr
    rw [← hs]
    refine h'.feeds id n' x (hde id hd) hn' ?_ ?_
    · rw [(Node.alike_of_orphan ho).inputs]
      exact hx
    · intro r hr'
      rw [hs] at hr'
      exact hde _ (hr r hr')

theorem mono (h : Keeps E t t') (hde : ∀ id, D id → E id) : Keeps D t t' :=
  Keeps.refl.trans h hde

theorem node? (h : Keeps D t t') (hd : D id) (hn : t.node? id = some n) :
    ∃ n', t'.node? id = some n' ∧ n'.orphan = n.orphan :=
  node?_of_bare? (h.nodes id hd) hn

end Keeps

theorem orphan_leaving (id : NodeId) (n : Node) : (leaving id n).orphan = n.orphan := by
  unfold leaving
  split <;> rfl

/-- Removing a node keeps all others. -/
theorem keeps_removeNode (h : t.Sane) (hd : ¬D id) : Keeps D t (t.removeNode id) := by
  by_cases hg : id.isGroup = true
  · have : t.removeNode id = t := by
      unfold removeNode
      rw [if_pos hg]
    rw [this]
    exact .refl
  · have hg : id.isGroup = false := by simpa using hg
    constructor
    · intro x hx
      have hne : x ≠ id := fun h => hd (h ▸ hx)
      unfold bare?
      rw [node?_removeNode hg, if_neg hne, Option.map_map]
      congr 1
      funext n
      exact orphan_leaving id n
    · intro x n y hx hn hy hr
      have hne : x ≠ id := fun h => hd (h ▸ hx)
      unfold sourceOf?
      rw [feedOf?_removeNode h.single hg]
      cases hl : t.feedOf? y with
      | none => rfl
      | some l =>
        have hsource : l.source.node ≠ id := by
          intro hc
          exact hd (hc ▸ hr l.source (by rw [sourceOf?, hl]; rfl))
        have htarget : l.target.node ≠ id := by
          obtain ⟨m, hm, hy'⟩ := (h.ends l (mem_of_feedOf? hl)).2
          rw [target_of_feedOf? hl] at hy'
          have := h.owner x l.target.node n m y hn hm (List.mem_append_left _ hy)
            (List.mem_append_left _ hy')
          rwa [← this]
        have : l.touchesNode id = false := by simp [Link.touchesNode, hsource, htarget]
        simp [Option.filter, this]

structure Local (id : NodeId) (t t' : Tree) : Prop where
  editor : t'.editor = t.editor
  boundary : t'.boundary = t.boundary
  ids : t'.nodes.map (·.id) = t.nodes.map (·.id)
  others : ∀ x, x ≠ id → t'.node? x = t.node? x
  own : ∀ n, t.node? id = some n → ∃ n', t'.node? id = some n' ∧ n'.Alike n ∧
    n'.name = n.name ∧ n'.type = n.type
  parent : ∀ n n', t.node? id = some n → t'.node? id = some n' → n'.parent = n.parent
  feeds : ∀ y, (∀ n, t.node? id = some n → y ∉ n.inputIds) → t'.feedOf? y = t.feedOf? y
  supply : t.supply ≤ t'.supply

namespace Local

variable {id : NodeId}

theorem refl : Local id t t :=
  ⟨rfl, rfl, rfl, fun _ _ => rfl, fun n hn => ⟨n, hn, .refl n, rfl, rfl⟩,
    fun n n' hn hn' => by cases hn.symm.trans hn'; rfl, fun _ _ => rfl, Nat.le_refl _⟩

theorem trans (h : Local id t t') (h' : Local id t' t'') : Local id t t'' where
  editor := h'.editor.trans h.editor
  boundary := h'.boundary.trans h.boundary
  ids := h'.ids.trans h.ids
  others := fun x hx => (h'.others x hx).trans (h.others x hx)
  own := by
    intro n hn
    obtain ⟨n', hn', ha, hname, htype⟩ := h.own n hn
    obtain ⟨n'', hn'', ha', hname', htype'⟩ := h'.own n' hn'
    exact ⟨n'', hn'', ha'.trans ha, hname'.trans hname, htype'.trans htype⟩
  parent := by
    intro n n'' hn hn''
    obtain ⟨n', hn', -⟩ := h.own n hn
    exact (h'.parent n' n'' hn' hn'').trans (h.parent n n' hn hn')
  feeds := by
    intro y hy
    rw [h'.feeds y ?_, h.feeds y hy]
    intro n' hn'
    cases hn : t.node? id with
    | none =>
      have : id ∈ t'.nodes.map (·.id) :=
        List.mem_map.mpr ⟨n', mem_of_node? hn', id_of_node? hn'⟩
      rw [h.ids] at this
      obtain ⟨m, hm, hid⟩ := List.mem_map.mp this
      obtain ⟨k, hk⟩ := node?_isSome_of_mem hm
      rw [hid, hn] at hk
      cases hk
    | some n =>
      obtain ⟨m, hm, ha, -⟩ := h.own n hn
      rw [hn'] at hm
      cases hm
      rw [ha.inputs]
      exact hy n hn
  supply := Nat.le_trans h.supply h'.supply

theorem keeps (h : Local id t t') (hs : t.Sane) (hd : ¬D id) : Keeps D t t' where
  nodes := by
    intro x hx
    unfold bare?
    rw [h.others x fun hc => hd (hc ▸ hx)]
  feeds := by
    intro x n y hx hn hy _
    unfold sourceOf?
    rw [h.feeds y]
    intro m hm hy'
    have := hs.owner x id n m y hn hm (List.mem_append_left _ hy) (List.mem_append_left _ hy')
    exact hd (this ▸ hx)

theorem modifyNode {f : Node → Node} (hid : ∀ n, (f n).id = n.id) (ha : ∀ n, (f n).Alike n)
    (hn : ∀ n, (f n).name = n.name ∧ (f n).type = n.type ∧ (f n).parent = n.parent) :
    Local id t (t.modifyNode id f) where
  editor := rfl
  boundary := rfl
  ids := map_id_modifyNode hid
  others := by
    intro x hx
    rw [node?_modifyNode hid]
    cases t.node? x <;> simp [hx]
  own := by
    intro n h
    refine ⟨f n, ?_, ha n, (hn n).1, (hn n).2.1⟩
    rw [node?_modifyNode hid, h]
    simp
  parent := by
    intro n n' h h'
    rw [node?_modifyNode hid, h] at h'
    have : f n = n' := by simpa using h'
    rw [← this]
    exact (hn n).2.2
  feeds := fun _ _ => rfl
  supply := Nat.le_refl _

theorem setActive (x : Option NodeId) : Local id t (t.setActive x) := { Local.refl with }

end Local

/-- Nothing is taken away: every node stays, and with it the links into nodes
that are not generated. -/
structure Adds (t t' : Tree) : Prop where
  nodes : ∀ id n, t.node? id = some n →
    ∃ n', t'.node? id = some n' ∧ n'.name = n.name ∧ n'.type = n.type
  links : ∀ l ∈ t.links, ∀ n, t.node? l.target.node = some n → Tag.isTag n.name = false →
    l ∈ t'.links

namespace Adds

theorem refl : Adds t t := ⟨fun _ n hn => ⟨n, hn, rfl, rfl⟩, fun _ hl _ _ _ => hl⟩

theorem trans (h : Adds t t') (h' : Adds t' t'') : Adds t t'' where
  nodes := by
    intro id n hn
    obtain ⟨n', hn', hname, htype⟩ := h.nodes id n hn
    obtain ⟨n'', hn'', hname', htype'⟩ := h'.nodes id n' hn'
    exact ⟨n'', hn'', hname'.trans hname, htype'.trans htype⟩
  links := by
    intro l hl n hn htag
    obtain ⟨n', hn', hname, -⟩ := h.nodes _ n hn
    exact h'.links l (h.links l hl n hn htag) n' hn' (by rw [hname]; exact htag)

theorem addNode (hs : t.Sane) {type : NodeType} {setup : NodeSetup} :
    Adds t (t.addNode type setup).1 where
  nodes := by
    intro id n hn
    refine ⟨n, ?_, rfl, rfl⟩
    rw [node?_addNode hs.nodesBelow, if_neg, hn]
    rintro rfl
    have hlt := hs.nodesBelow n (mem_of_node? hn)
    rw [id_of_node? hn] at hlt
    exact Nat.lt_irrefl _ hlt
  links := by
    intro l hl _ _ _
    rw [addNode_eq]
    exact hl

theorem of_local (h : Local id t t') (hs : t.Sane)
    (ht : ∀ n, t.node? id = some n → Tag.isTag n.name = true) : Adds t t' where
  nodes := by
    intro x n hn
    by_cases hx : x = id
    · subst hx
      obtain ⟨n', hn', -, hname, htype⟩ := h.own n hn
      exact ⟨n', hn', hname, htype⟩
    · exact ⟨n, (h.others x hx).trans hn, rfl, rfl⟩
  links := by
    intro l hl n hn htag
    obtain ⟨-, k, hk, hmem⟩ := hs.ends l hl
    rw [hn] at hk
    cases hk
    refine mem_of_feedOf? ((h.feeds l.target.socket ?_).trans (feedOf?_of_mem hs.single hl))
    intro m hm hmem'
    cases hs.owner _ _ n m _ hn hm (List.mem_append_left _ hmem) (List.mem_append_left _ hmem')
    rw [hn] at hm
    cases hm
    rw [ht n hn] at htag
    cases htag

end Adds

/-! ### Outlines -/

variable {x : NodeId}

def outline (t : Tree) : List Outline := t.nodes.map Node.outline

theorem generatedCount_eq (t : Tree) :
    t.generatedCount = t.outline.countP fun o => Tag.isTag o.name := by
  rw [generatedCount, outline, List.countP_map]
  rfl

theorem parent?_eq (t : Tree) (x : NodeId) :
    t.parent? x = (t.outline.find? (·.id == x)).bind (·.parent) := by
  rw [parent?, node?, outline, List.find?_map, Option.bind_map]
  rfl

theorem name?_eq (t : Tree) (x : NodeId) :
    (t.node? x).map (·.name) = (t.outline.find? (·.id == x)).map (·.name) := by
  rw [node?, outline, List.find?_map, Option.map_map]
  rfl

theorem mem_outline {o : Outline} : o ∈ t.outline ↔ ∃ n ∈ t.nodes, n.outline = o := List.mem_map

section Same

variable (h : t'.outline = t.outline)
include h

theorem generatedCount_of_outline : t'.generatedCount = t.generatedCount := by
  rw [generatedCount_eq, h, generatedCount_eq]

theorem parent?_of_outline (x : NodeId) : t'.parent? x = t.parent? x := by
  rw [parent?_eq, h, parent?_eq]

theorem name?_of_outline (x : NodeId) : (t'.node? x).map (·.name) = (t.node? x).map (·.name) := by
  rw [name?_eq, h, name?_eq]

end Same

theorem outline_eq_of_nodes (hids : t'.nodes.map (·.id) = t.nodes.map (·.id))
    (hd : (t.nodes.map (·.id)).Nodup) (h : ∀ x n, t.node? x = some n →
      ∃ n', t'.node? x = some n' ∧ n'.outline = n.outline) : t'.outline = t.outline := by
  have hlength : t'.nodes.length = t.nodes.length := by simpa using congrArg List.length hids
  refine List.ext_getElem (by simp [outline, hlength]) fun i hi hi' => ?_
  simp only [outline, List.length_map] at hi hi'
  simp only [outline, List.getElem_map]
  have hid : t'.nodes[i].id = t.nodes[i].id := by
    have := congrArg (·[i]?) hids
    simpa [hi, hi'] using this
  obtain ⟨n', hn', heq⟩ := h _ _ (node?_of_mem hd (List.getElem_mem hi'))
  rw [← hid, node?_of_mem (hids ▸ hd) (List.getElem_mem hi)] at hn'
  cases hn'
  exact heq

theorem Local.outline (h : Local id t t') (hs : t.Sane) : t'.outline = t.outline := by
  refine outline_eq_of_nodes h.ids hs.nodes fun x n hn => ?_
  by_cases hx : x = id
  · subst hx
    obtain ⟨n', hn', -, hname, -⟩ := h.own n hn
    refine ⟨n', hn', ?_⟩
    rw [Node.outline, hname, h.parent n n' hn hn', id_of_node? hn', ← id_of_node? hn]
    rfl
  · exact ⟨n, (h.others x hx).trans hn, rfl⟩

theorem outline_mirrored (n : Node) : (t.mirrored n).outline = n.outline := by
  unfold mirrored
  split
  · rfl
  · split <;> rfl

theorem Reboundary.outline {X : SocketId → Prop} (h : Reboundary X t t') (hs : t.Sane) :
    t'.outline = t.outline :=
  outline_eq_of_nodes h.ids hs.nodes fun x n hn =>
    ⟨t'.mirrored n, by rw [h.node?, hn]; rfl, outline_mirrored n⟩

theorem find?_without {ids : List NodeId}
    (h : t'.outline = (t.outline.filter (·.id ∉ ids)).map (Outline.without ids)) (x : NodeId) :
    t'.outline.find? (·.id == x) =
      if x ∈ ids then none else (t.outline.find? (·.id == x)).map (Outline.without ids) := by
  have hid : ((fun o : Outline => o.id == x) ∘ Outline.without ids) = fun o => o.id == x := rfl
  rw [h, List.find?_map, hid, List.find?_filter]
  split
  · next hx =>
    rw [List.find?_eq_none.mpr, Option.map_none]
    intro o _ ho
    obtain ⟨hout, rfl⟩ : o.id ∉ ids ∧ o.id = x := by simpa using ho
    exact hout hx
  · next hx =>
    congr 2
    funext o
    by_cases ho : o.id = x
    · simp [ho, hx]
    · simp [ho]

theorem outline_addNode (type : NodeType) (setup : NodeSetup) :
    (t.addNode type setup).1.outline = t.outline ++ [(t.addedNode type setup).outline] := by
  rw [addNode_eq, outline, List.map_append]
  rfl

theorem outline_removeNode (hg : id.isGroup = false) : (t.removeNode id).outline =
    (t.outline.filter (·.id ∉ [id])).map (Outline.without [id]) := by
  rw [removeNode_eq hg]
  unfold outline
  rw [List.filter_map, List.map_map, List.map_map]
  have hkeep : (fun n : Node => n.id != id) = (fun o : Outline => decide (o.id ∉ [id])) ∘
      Node.outline := by
    funext n
    simp [Node.outline, bne]
    rfl
  rw [hkeep]
  refine List.map_congr_left fun n _ => ?_
  simp only [Function.comp_apply, Node.outline, Outline.without]
  congr 2
  funext f
  simp [bne]
  rfl

/-- What removing nodes leaves of an outline. -/
theorem outline_foldl_removeNode {ids : List NodeId} (hg : ∀ id ∈ ids, id.isGroup = false) :
    (ids.foldl removeNode t).outline =
      (t.outline.filter (·.id ∉ ids)).map (Outline.without ids) := by
  induction ids generalizing t with
  | nil =>
    have : Outline.without [] = id := by
      funext o
      rcases o with ⟨_, _, _ | f⟩ <;> simp [Outline.without]
    simp [this]
  | cons id ids ih =>
    rw [List.foldl_cons, ih fun i hi => hg i (List.mem_cons_of_mem _ hi),
      outline_removeNode (hg id List.mem_cons_self), List.filter_map, List.map_map,
      List.filter_filter]
    have hkeep : (fun o : Outline => ((fun o : Outline => decide (o.id ∉ ids)) ∘
        Outline.without [id]) o && decide (o.id ∉ [id])) = fun o => decide (o.id ∉ id :: ids) := by
      funext o
      simp [Outline.without, Bool.and_comm]
    have hleave : Outline.without ids ∘ Outline.without [id] = Outline.without (id :: ids) := by
      funext o
      simp [Outline.without, Option.filter_filter]
    rw [hkeep, hleave]

end Tree

end FormulaGraph
