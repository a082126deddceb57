import FormulaGraph.Proofs.Graph.Sane
import FormulaGraph.Proofs.Run

/-!
The boundary of a tree and the group nodes that show it. Every edit of the
boundary keeps identities sound and the group nodes in step with it.
-/

namespace FormulaGraph

open Run

theorem NodeId.isGroup_iff_lt {x : NodeId} : x.isGroup = true ↔ x.index < 2 := by
  obtain ⟨i⟩ := x
  simp only [NodeId.isGroup, NodeId.groupInput, NodeId.groupOutput, Bool.or_eq_true, beq_iff_eq,
    NodeId.mk.injEq]
  omega

theorem NodeId.not_isGroup_of_le {i : Nat} (h : 2 ≤ i) : (⟨i⟩ : NodeId).isGroup = false := by
  rw [Bool.eq_false_iff, ne_eq, isGroup_iff_lt]
  exact Nat.not_lt.mpr h

namespace Tree

variable {x : SocketId} {n : Node} {id : NodeId} {side : Side}

structure Grouped (t : Tree) : Prop where
  input : ∃ n, t.node? .groupInput = some n ∧ n.outputs = t.shownInside .input ∧
    Tag.isTag n.name = false
  output : ∃ n, t.node? .groupOutput = some n ∧ n.inputs = t.shownInside .output ∧
    Tag.isTag n.name = false
  distinct : (t.boundary.map (·.id)).Nodup

theorem ne_of_not_group (h : id.isGroup = false) : id ≠ .groupInput ∧ id ≠ .groupOutput := by
  constructor <;>
  · rintro rfl
    cases h

theorem Grouped.not_group {t : Tree} (hg : t.Grouped) (hn : t.node? id = some n)
    (ht : Tag.isTag n.name = true) : id.isGroup = false := by
  have absurd_of : ∀ m, t.node? id = some m → Tag.isTag m.name = false → False := by
    intro m hm hname
    rw [hn] at hm
    cases hm
    rw [ht] at hname
    cases hname
  refine Bool.eq_false_iff.mpr fun hgroup => ?_
  rw [NodeId.isGroup, Bool.or_eq_true, beq_iff_eq, beq_iff_eq] at hgroup
  rcases hgroup with rfl | rfl
  · obtain ⟨m, hm, -, hname⟩ := hg.input
    exact absurd_of m hm hname
  · obtain ⟨m, hm, -, hname⟩ := hg.output
    exact absurd_of m hm hname

theorem groupOutput_ne_groupInput : NodeId.groupOutput ≠ NodeId.groupInput := by decide

variable {t t' : Tree}

theorem mem_ids_shownInside :
    x ∈ (t.shownInside side).map (·.id) ↔ ∃ s ∈ t.boundary, s.side = side ∧ s.id = x := by
  unfold shownInside socketsOn
  simp only [List.map_map, List.mem_map, List.mem_filter, beq_iff_eq, Function.comp_apply]
  constructor
  · rintro ⟨s, ⟨hs, hside⟩, rfl⟩
    exact ⟨s, hs, hside, rfl⟩
  · rintro ⟨s, hs, hside, rfl⟩
    exact ⟨s, ⟨hs, hside⟩, rfl⟩

theorem nodup_ids_shownInside (h : (t.boundary.map (·.id)).Nodup) (side : Side) :
    ((t.shownInside side).map (·.id)).Nodup := by
  unfold shownInside socketsOn
  rw [List.map_map]
  exact h.sublist (List.filter_sublist.map _)

def mirrored (t : Tree) (n : Node) : Node :=
  if n.id = .groupInput then { n with outputs := t.shownInside .input }
  else if n.id = .groupOutput then { n with inputs := t.shownInside .output }
  else n

theorem node?_syncGroups (x : NodeId) : t.syncGroups.node? x = (t.node? x).map t.mirrored := by
  unfold syncGroups
  rw [node?_modifyNode (by intro n; rfl), node?_modifyNode (by intro n; rfl)]
  cases h : t.node? x with
  | none => rfl
  | some n =>
    have hid := id_of_node? h
    by_cases hi : x = .groupInput
    · subst hi
      simp [mirrored, hid, groupOutput_ne_groupInput.symm]
    · by_cases ho : x = .groupOutput
      · subst ho
        simp [mirrored, hid, groupOutput_ne_groupInput]
      · simp [mirrored, hid, hi, ho]

theorem map_id_syncGroups : t.syncGroups.nodes.map (·.id) = t.nodes.map (·.id) := by
  unfold syncGroups
  rw [map_id_modifyNode (by intro n; rfl), map_id_modifyNode (by intro n; rfl)]

theorem Grouped.syncGroups_eq (h : t.Grouped) (hd : (t.nodes.map (·.id)).Nodup) :
    t.syncGroups = t := by
  obtain ⟨i, hi, hi', -⟩ := h.input
  obtain ⟨o, ho, ho', -⟩ := h.output
  have hin :
      (t.modifyNode .groupInput fun n => { n with outputs := t.shownInside .input }) = t := by
    apply modifyNode_eq_self
    intro n hn hid
    have := node?_of_mem hd hn
    rw [hid, hi] at this
    cases this
    rw [← hi']
  unfold syncGroups
  rw [hin]
  apply modifyNode_eq_self
  intro n hn hid
  have := node?_of_mem hd hn
  rw [hid, ho] at this
  cases this
  rw [← ho']

/-- What an edit of the boundary may do before the group nodes are given its
sockets: sockets keep their sides, and one may be new. -/
structure Redraws (t t₁ : Tree) : Prop where
  nodes : t₁.nodes = t.nodes
  distinct : (t₁.boundary.map (·.id)).Nodup
  origin : ∀ s ∈ t₁.boundary, (∃ r ∈ t.boundary, r.id = s.id ∧ r.side = s.side) ∨
    s.id.index = t.supply
  below : ∀ s ∈ t₁.boundary, s.id.index < t₁.supply
  supply : t.supply ≤ t₁.supply
  links : t₁.links.Sublist t.links
  kept : ∀ s ∈ t.boundary, (∀ r ∈ t₁.boundary, r.id = s.id → r.side ≠ s.side) →
    ∀ l ∈ t₁.links, l.touchesSocket s.id = false

namespace Redraws

variable {t₁ : Tree}
  {l : Link}
section

variable (h : Redraws t t₁)
include h

theorem shown (hx : x ∈ (t₁.shownInside side).map (·.id)) :
    x ∈ (t.shownInside side).map (·.id) ∨ x.index = t.supply := by
  obtain ⟨s, hs, rfl, rfl⟩ := mem_ids_shownInside.mp hx
  rcases h.origin s hs with ⟨r, hr, hid, hside⟩ | hnew
  · exact .inl (mem_ids_shownInside.mpr ⟨r, hr, hside, hid⟩)
  · exact .inr hnew

theorem grouped (hg : t.Grouped) : t₁.syncGroups.Grouped := by
  obtain ⟨i, hi, -, hin⟩ := hg.input
  obtain ⟨o, ho, -, hon⟩ := hg.output
  have hnode : ∀ x, t₁.node? x = t.node? x := fun x => by unfold node?; rw [h.nodes]
  refine ⟨⟨_, by rw [node?_syncGroups, hnode, hi]; rfl, ?_, ?_⟩,
    ⟨_, by rw [node?_syncGroups, hnode, ho]; rfl, ?_, ?_⟩, h.distinct⟩
  · simp [mirrored, id_of_node? hi]
    rfl
  · simp [mirrored, id_of_node? hi, hin]
  · simp [mirrored, id_of_node? ho, groupOutput_ne_groupInput]
    rfl
  · simp [mirrored, id_of_node? ho, hon, groupOutput_ne_groupInput]

/-- The sockets of a node afterwards are its old ones and, on a group node,
possibly the new one of its side. -/
theorem mem_socketIds (hg : t.Grouped) (hn : t.node? id = some n)
    (hx : x ∈ (t₁.mirrored n).socketIds) :
    x ∈ n.socketIds ∨ (x.index = t.supply ∧ ∃ side, id = Pass.groupNode side ∧
      x ∈ (t₁.shownInside side).map (·.id)) := by
  obtain ⟨i, hi, hi', -⟩ := hg.input
  obtain ⟨o, ho, ho', -⟩ := hg.output
  have hid := id_of_node? hn
  unfold mirrored at hx
  split at hx
  · next hin =>
    rw [hid] at hin
    subst hin
    rw [hi] at hn
    cases hn
    rcases List.mem_append.mp hx with hx | hx
    · exact .inl (List.mem_append_left _ hx)
    · rcases h.shown hx with hx' | hnew
      · exact .inl (List.mem_append_right _ (by rw [Node.outputIds, hi']; exact hx'))
      · exact .inr ⟨hnew, .input, rfl, hx⟩
  · split at hx
    · next hout =>
      rw [hid] at hout
      subst hout
      rw [ho] at hn
      cases hn
      rcases List.mem_append.mp hx with hx | hx
      · rcases h.shown hx with hx' | hnew
        · exact .inl (List.mem_append_left _ (by rw [Node.inputIds, ho']; exact hx'))
        · exact .inr ⟨hnew, .output, rfl, hx⟩
      · exact .inl (List.mem_append_right _ hx)
    · exact .inl hx

theorem nodup_socketIds (hs : t.Sane) (hg : t.Grouped)
    (hn : t.node? id = some n) :
    (t₁.mirrored n).socketIds.Nodup := by
  obtain ⟨i, hi, hi', -⟩ := hg.input
  obtain ⟨o, ho, ho', -⟩ := hg.output
  have hid := id_of_node? hn
  have hold := hs.distinct id n hn
  have hbelow := hs.socketsBelow id n
  unfold Node.socketIds at hold hbelow
  obtain ⟨hin, hout, hdis⟩ := List.nodup_append.mp hold
  -- A shown identity that the other list of the node holds too is an old one.
  unfold mirrored
  split
  · next hgi =>
    rw [hid] at hgi
    subst hgi
    rw [hi] at hn
    cases hn
    refine List.nodup_append.mpr ⟨hin, nodup_ids_shownInside h.distinct _, ?_⟩
    intro x hx y hy hxy
    subst hxy
    rcases h.shown hy with hy' | hnew
    · exact hdis x hx x (by rw [Node.outputIds, hi']; exact hy') rfl
    · exact absurd (hbelow x hi (List.mem_append_left _ hx)) (by omega)
  · split
    · next hgo =>
      rw [hid] at hgo
      subst hgo
      rw [ho] at hn
      cases hn
      refine List.nodup_append.mpr ⟨nodup_ids_shownInside h.distinct _, hout, ?_⟩
      intro x hx y hy hxy
      subst hxy
      rcases h.shown hx with hx' | hnew
      · exact hdis x (by rw [Node.inputIds, ho']; exact hx') x hy rfl
      · exact absurd (hbelow x ho (List.mem_append_right _ hy)) (by omega)
    · exact hold

theorem side_unique {side' : Side} (hx : x ∈ (t₁.shownInside side).map (·.id))
    (hx' : x ∈ (t₁.shownInside side').map (·.id)) :
    side = side' := by
  obtain ⟨s, hs, rfl, hid⟩ := mem_ids_shownInside.mp hx
  obtain ⟨r, hr, rfl, hid'⟩ := mem_ids_shownInside.mp hx'
  rw [List.inj_on_of_nodup_map h.distinct hs hr (hid.trans hid'.symm)]

theorem mem_shown (hl : l ∈ t₁.links)
    (hx : x ∈ (t.shownInside side).map (·.id)) (ht : l.touchesSocket x = true) :
    x ∈ (t₁.shownInside side).map (·.id) := by
  obtain ⟨s, hs, hside, rfl⟩ := mem_ids_shownInside.mp hx
  refine mem_ids_shownInside.mpr ?_
  by_contra hc
  have := h.kept s hs (fun r hr hrid hrs => hc ⟨r, hr, hrs.trans hside, hrid⟩) l hl
  rw [ht] at this
  cases this

theorem hasOutput (hg : t.Grouped) (hl : l ∈ t₁.links)
    (ho : t.HasOutput l.source) : t₁.syncGroups.HasOutput l.source := by
  obtain ⟨i, hi, hi', -⟩ := hg.input
  obtain ⟨n, hn, hx⟩ := ho
  have hnode : t₁.node? l.source.node = some n := by
    unfold node?
    rw [h.nodes]
    exact hn
  refine ⟨t₁.mirrored n, by rw [node?_syncGroups, hnode]; rfl, ?_⟩
  unfold mirrored
  split
  · next hgi =>
    rw [id_of_node? hn] at hgi
    rw [hgi, hi] at hn
    cases hn
    rw [Node.outputIds, hi'] at hx
    exact h.mem_shown hl hx (by simp [Link.touchesSocket])
  · split <;> exact hx

theorem hasInput (hg : t.Grouped) (hl : l ∈ t₁.links)
    (ht : t.HasInput l.target) : t₁.syncGroups.HasInput l.target := by
  obtain ⟨o, ho, ho', -⟩ := hg.output
  obtain ⟨n, hn, hx⟩ := ht
  have hnode : t₁.node? l.target.node = some n := by
    unfold node?
    rw [h.nodes]
    exact hn
  refine ⟨t₁.mirrored n, by rw [node?_syncGroups, hnode]; rfl, ?_⟩
  unfold mirrored
  split
  · exact hx
  · split
    · next hgo =>
      rw [id_of_node? hn] at hgo
      rw [hgo, ho] at hn
      cases hn
      rw [Node.inputIds, ho'] at hx
      exact h.mem_shown hl hx (by simp [Link.touchesSocket])
    · exact hx

end

theorem sided (h : n.Sided) : (t₁.mirrored n).Sided := by
  have shown : ∀ side, ∀ d ∈ (t₁.shownInside side).map Node.role,
      d = (side.opposite, side.opposite.multiConnect) := by
    intro side d hd
    unfold shownInside at hd
    simp only [List.map_map, List.mem_map, Function.comp_apply] at hd
    obtain ⟨s, -, rfl⟩ := hd
    rfl
  unfold mirrored
  split
  · exact ⟨h.1, shown .input⟩
  · split
    · exact ⟨shown .output, h.2⟩
    · exact h

theorem sane (h : Redraws t t₁) (hs : t.Sane) (hg : t.Grouped) : t₁.syncGroups.Sane := by
  have hnode : ∀ {x n'}, t₁.syncGroups.node? x = some n' →
      ∃ n, t.node? x = some n ∧ n' = t₁.mirrored n := by
    intro x n' hn'
    rw [node?_syncGroups] at hn'
    obtain ⟨n, hn, rfl⟩ := Option.map_eq_some_iff.mp hn'
    refine ⟨n, ?_, rfl⟩
    unfold node? at hn ⊢
    rwa [h.nodes] at hn
  refine ⟨?_, ?_, ?_, ?_, ?_, ?_, ?_, ?_⟩
  · rw [map_id_syncGroups, h.nodes]
    exact hs.nodes
  · intro id n' hn'
    obtain ⟨n, hn, rfl⟩ := hnode hn'
    exact sided (hs.sided id n hn)
  · intro id n' hn'
    obtain ⟨n, hn, rfl⟩ := hnode hn'
    exact h.nodup_socketIds hs hg hn
  · intro a b n' m' x hn' hm' hx hy
    obtain ⟨n, hn, rfl⟩ := hnode hn'
    obtain ⟨m, hm, rfl⟩ := hnode hm'
    rcases h.mem_socketIds hg hn hx with hx | ⟨hxn, side, rfl, hx⟩ <;>
      rcases h.mem_socketIds hg hm hy with hy | ⟨hyn, side', rfl, hy⟩
    · exact hs.owner a b n m x hn hm hx hy
    · exact absurd (hs.socketsBelow _ n x hn hx) (by omega)
    · exact absurd (hs.socketsBelow _ m x hm hy) (by omega)
    · rw [h.side_unique hx hy]
  · intro n hn
    have : n.id ∈ t.nodes.map (·.id) := by
      rw [← h.nodes, ← map_id_syncGroups]
      exact List.mem_map_of_mem hn
    obtain ⟨m, hm, hid⟩ := List.mem_map.mp this
    rw [← hid]
    exact Nat.lt_of_lt_of_le (hs.nodesBelow m hm) h.supply
  · intro id n' x hn' hx
    obtain ⟨n, hn, rfl⟩ := hnode hn'
    rcases h.mem_socketIds hg hn hx with hx | ⟨-, side, -, hx⟩
    · exact Nat.lt_of_lt_of_le (hs.socketsBelow _ n x hn hx) h.supply
    · obtain ⟨s, hs', -, rfl⟩ := mem_ids_shownInside.mp hx
      exact h.below s hs'
  · intro l hl
    have hl : l ∈ t₁.links := hl
    obtain ⟨ho, hi⟩ := hs.ends l (h.links.subset hl)
    exact ⟨h.hasOutput hg hl ho, h.hasInput hg hl hi⟩
  · exact single_of_sublist hs.single h.links

end Redraws

/-! A tree with nothing but its group nodes. -/

theorem mem_empty {editor : Editor} (h : n ∈ (empty editor).nodes) :
    n.inputs = [] ∧ n.outputs = [] ∧ n.id.index < 2 := by
  rcases List.mem_cons.mp h with rfl | h
  · exact ⟨rfl, rfl, by decide⟩
  · rw [List.mem_singleton.mp h]
    exact ⟨rfl, rfl, by decide⟩

theorem sane_empty (editor : Editor) : (empty editor).Sane := by
  have bare : ∀ id n, (empty editor).node? id = some n → n.inputs = [] ∧ n.outputs = [] := by
    intro id n h
    obtain ⟨hi, ho, -⟩ := mem_empty (mem_of_node? h)
    exact ⟨hi, ho⟩
  have ids : ∀ id n, (empty editor).node? id = some n → n.socketIds = [] := by
    intro id n h
    obtain ⟨hi, ho⟩ := bare id n h
    simp [Node.socketIds, Node.inputIds, Node.outputIds, hi, ho]
  refine ⟨(by decide : [NodeId.mk 0, ⟨1⟩].Nodup), ?_, ?_, ?_, ?_, ?_, by simp [empty],
    List.nodup_nil⟩
  · intro id n h
    obtain ⟨hi, ho⟩ := bare id n h
    simp [Node.Sided, hi, ho]
  · intro id n h
    rw [ids id n h]
    exact List.nodup_nil
  · intro i j n m x hn _ hx
    rw [ids i n hn] at hx
    cases hx
  · intro n hn
    exact (mem_empty hn).2.2
  · intro id n x hn hx
    rw [ids id n hn] at hx
    cases hx

theorem grouped_empty (editor : Editor) : (empty editor).Grouped :=
  ⟨⟨_, rfl, rfl, by decide⟩, ⟨_, rfl, rfl, by decide⟩, List.nodup_nil⟩

end Tree

end FormulaGraph
