import FormulaGraph.Proofs.Graph.BoundaryNames
import FormulaGraph.Proofs.Pass.Amendments

/-!
What the edits of a pass do not reach. Identities are never given out twice, so
a socket that was on the boundary stays apart from all that a pass makes. Its
links and its default then change only by edits that are about that socket.
-/

namespace FormulaGraph

open Run Relation

namespace Tree

variable {t t' : Tree} {l : Link}

/-- What a tree has that the one before did not have is newer, the sockets of
group nodes apart. -/
structure Descends (t t' : Tree) : Prop where
  nodes : ∀ n ∈ t'.nodes, n.id.isGroup = false →
    (t.supply ≤ n.id.index ∧ ∀ x ∈ n.inputIds, t.supply ≤ x.index) ∨
      ∃ m ∈ t.nodes, m.id = n.id ∧ m.inputIds = n.inputIds ∧ m.name = n.name
  boundary : ∀ s ∈ t'.boundary, t.Origin s

theorem Redresses.descends (h : Redresses t t') : Descends t t' where
  boundary := h.boundary
  nodes := by
    intro n hn hg
    obtain ⟨f, hf, heq⟩ := h.nodes
    rw [heq] at hn
    obtain ⟨m, hm, rfl⟩ := List.mem_map.mp hn
    have hid : (f m).id = m.id := congrArg Outline.id (hf m).outline
    exact .inr ⟨m, hm, hid.symm, ((hf m).sockets (hid ▸ hg)).inputs.symm,
      (congrArg Outline.name (hf m).outline).symm⟩

theorem descends_addNode (type : NodeType) (setup : NodeSetup) :
    Descends t (t.addNode type setup).1 := by
  rw [addNode_eq]
  refine ⟨fun n hn hg => ?_, fun s hs => origin_of_mem hs⟩
  rcases List.mem_append.mp hn with hn | hn
  · exact .inr ⟨n, hn, rfl, rfl, rfl⟩
  · rw [List.mem_singleton.mp hn, id_addedNode]
    refine .inl ⟨Nat.le_refl _, fun x hx => ?_⟩
    have hx : x ∈ (t.addedNode type setup).socketIds := List.mem_append_left _ hx
    rw [socketIds_addedNode] at hx
    obtain ⟨i, hi, rfl⟩ := List.mem_map.mp hx
    exact Nat.le_of_succ_le (List.mem_range'_1.mp hi).1

theorem descends_removeNode (id : NodeId) : Descends t (t.removeNode id) := by
  cases hg : id.isGroup with
  | true =>
    rw [removeNode, if_pos hg]
    exact (Redresses.refl t).descends
  | false =>
    rw [removeNode_eq hg]
    refine ⟨fun n hn _ => ?_, fun _ => origin_of_mem⟩
    obtain ⟨m, hm, rfl⟩ := List.mem_map.mp hn
    exact .inr ⟨m, (List.mem_filter.mp hm).1, rfl, rfl, rfl⟩

theorem boundary_framedTree (id : NodeId) (label : String) (members : List NodeId) :
    (Pass.framedTree t id label members).boundary = t.boundary := by
  have hflat := Pass.flat_framedTree t id label members
  exact (congrArg Tree.boundary hflat :)

theorem descends_framedTree (id : NodeId) (label : String) (members : List NodeId) :
    Descends t (Pass.framedTree t id label members) := by
  have hflat := Pass.flat_framedTree t id label members
  refine ⟨fun n hn _ => ?_, fun s hs => ?_⟩
  · have hn : n.orphan ∈ (Pass.framedTree t id label members).flat.nodes :=
      List.mem_map_of_mem hn
    rw [hflat] at hn
    obtain ⟨k, hk, heq⟩ := List.mem_map.mp hn
    obtain ⟨m, hm, rfl⟩ := List.mem_map.mp hk
    refine .inr ⟨m, hm, ?_⟩
    split at heq <;> exact ⟨(congrArg Node.id heq :), (Node.alike_of_orphan heq).inputs,
      (congrArg Node.name heq :)⟩
  · rw [boundary_framedTree] at hs
    exact origin_of_mem hs

theorem Descends.trans {t'' : Tree} (h : Descends t t') (h' : Descends t' t'')
    (hs : t.supply ≤ t'.supply) : Descends t t'' where
  nodes := by
    intro n hn hg
    rcases h'.nodes n hn hg with ⟨hid, hin⟩ | ⟨m, hm, hid, hin, hname⟩
    · exact .inl ⟨Nat.le_trans hs hid, fun x hx => Nat.le_trans hs (hin x hx)⟩
    · rw [← hid, ← hin, ← hname]
      exact h.nodes m hm (hid ▸ hg)
  boundary := fun s hs' => (h'.boundary s hs').trans h.boundary hs

theorem Descends.contains (h : Descends t t') {x : NodeId} (hx : x.index < t.supply)
    (hg : x.isGroup = false) (hc : t.contains x = false) : t'.contains x = false := by
  refine Bool.eq_false_iff.mpr fun hc' => ?_
  obtain ⟨n, hn, rfl⟩ := List.mem_map.mp (contains_iff_mem.mp hc')
  rcases h.nodes n hn hg with ⟨hle, -⟩ | ⟨m, hm, hid, -⟩
  · exact absurd hx (Nat.not_lt.mpr hle)
  · have hin : t.contains n.id = true := contains_iff_mem.mpr (hid ▸ List.mem_map_of_mem hm)
    rw [hc] at hin
    cases hin

section Links

theorem mem_links_reconnect {a b : SocketRef} (hl : l ∈ t.links)
    (hb : l.target.socket ≠ b.socket) : l ∈ (reconnect a b t).2.links := by
  have hkept : l ∈ (t.disconnect b.socket).links :=
    List.mem_filter.mpr ⟨hl, bne_iff_ne.mpr hb⟩
  rw [reconnect_run]
  split <;> exact List.mem_append_left _ hkept

theorem links_setSocketDefault (x : SocketId) (value : Value) :
    (setSocketDefault x value t).2.links = t.links := by
  cases hs : t.boundarySocket? x with
  | none => rw [setSocketDefault_of_missing hs]
  | some s =>
    rw [setSocketDefault_run hs]
    split <;> rfl

theorem mem_links_socketFor {side : Side} {name : String} (type : SocketType) (hl : l ∈ t.links)
    (h : ∀ s, t.boundaryNamed? side name = some s → l.touchesSocket s.id = false) :
    l ∈ (socketFor side name type t).2.links := by
  rcases socketFor_cases (t := t) side name type with heq | ⟨s, wanted, hs, heq⟩ | ⟨-, wanted, heq⟩
  · rwa [heq]
  · obtain ⟨links, hretyped, -, hkept⟩ := t.retyped_eq s.id wanted
    rw [heq, hretyped]
    refine hkept l hl fun y hy => ?_
    rw [hy]
    exact h s hs
  · rwa [heq]

theorem mem_links_keepInputs (names : List String) (hl : l ∈ t.links)
    (h : ∀ s ∈ t.boundary, s.side = .input → l.touchesSocket s.id = false) :
    l ∈ (t.keepInputs names).links := by
  have drop : ∀ (ys : List SocketId) (u : Tree), l ∈ u.links →
      (∀ y ∈ ys, l.touchesSocket y = false) → l ∈ (ys.foldl dropSocket u).links := by
    intro ys
    induction ys with
    | nil => exact fun u hu _ => hu
    | cons y ys ih =>
      intro u hu hys
      refine ih _ ?_ fun z hz => hys z (List.mem_cons_of_mem _ hz)
      cases hs : u.boundarySocket? y with
      | none => rwa [dropSocket_of_missing hs]
      | some s =>
        rw [dropSocket_of_found hs]
        exact List.mem_filter.mpr ⟨hu, by rw [hys y List.mem_cons_self]; rfl⟩
  refine drop _ t hl fun y hy => ?_
  obtain ⟨s, hs, rfl⟩ := List.mem_map.mp hy
  obtain ⟨hs, hside⟩ := List.mem_filter.mp (List.mem_filter.mp hs).1
  exact h s hs (beq_iff_eq.mp hside)

end Links

end Tree

namespace Pass

variable {S : SocketId → Prop} {N : Side → String → Prop} {t t' : Tree} {l : Link}

theorem Amends.descends (h : Amends S N t t') : t.Descends t' := by
  rcases h.cases with h | ⟨type, setup, rfl⟩ | ⟨id, rfl⟩ | ⟨id, label, members, -, rfl⟩
  · exact h.descends
  · exact Tree.descends_addNode type setup
  · exact Tree.descends_removeNode id
  · exact Tree.descends_framedTree id label members

theorem Amends.descends_steps (h : ReflTransGen (Amends S N) t t') :
    t.Descends t' ∧ t.supply ≤ t'.supply := by
  induction h with
  | refl => exact ⟨(Tree.Redresses.refl t).descends, Nat.le_refl _⟩
  | tail _ ha ih => exact ⟨ih.1.trans ha.descends ih.2, Nat.le_trans ih.2 ha.supply_le⟩

/-- A link onto the boundary from a node inside that is there, or was until its
source was removed, and that no edit is about. -/
structure Shielded (N : Side → String → Prop) (l : Link) (t : Tree) : Prop where
  target : l.target.node.isGroup = true
  source : l.source.node.isGroup = false
  sourceBelow : l.source.node.index < t.supply
  below : ∀ x, l.touchesSocket x = true → x.index < t.supply
  unfed : ∀ n ∈ t.nodes, n.id.isGroup = false → l.target.socket ∉ n.inputIds
  unasked : ∀ s ∈ t.boundary, N s.side s.name → l.touchesSocket s.id = false
  link : l ∈ t.links ∨ t.contains l.source.node = false

namespace Shielded

variable (h : Shielded N l t)
include h

theorem not_feedable : ¬Feedable t l.target.socket := by
  rintro ⟨id, n, s, hn, hg, hs, hid⟩
  exact h.unfed n (Tree.mem_of_node? hn) (Tree.id_of_node? hn ▸ hg)
    (hid ▸ List.mem_map_of_mem hs)

/-- The link goes only with its source. -/
theorem mem_links (hS : ¬S l.target.socket) (ha : Amends S N t t') (hl : l ∈ t.links) :
    l ∈ t'.links ∨ t'.contains l.source.node = false := by
  have unreached : ∀ x, S x ∨ Feedable t x → l.target.socket ≠ x := by
    rintro x (hx | hx) rfl
    · exact hS hx
    · exact h.not_feedable hx
  cases ha with
  | activate id => exact .inl hl
  | make type setup =>
    rw [Tree.addNode_eq]
    exact .inl hl
  | remove id =>
    cases hg : id.isGroup with
    | true =>
      rw [Tree.removeNode, if_pos hg]
      exact .inl hl
    | false =>
      -- a group node is not removed, so the link can lose its source only
      by_cases hsource : l.source.node = id
      · refine .inr (Bool.eq_false_iff.mpr fun hc => ?_)
        obtain ⟨n, hn⟩ := Tree.contains_iff.mp hc
        rw [Tree.node?_removeNode hg, if_pos hsource] at hn
        cases hn
      · have htarget : l.target.node ≠ id := by
          rintro rfl
          rw [h.target] at hg
          cases hg
        rw [Tree.removeNode_eq hg]
        exact .inl (List.mem_filter.mpr ⟨hl, by simp [Link.touchesNode, hsource, htarget]⟩)
  | touch id _ touch => exact .inl hl
  | settle =>
    unfold besideActive
    split <;> exact .inl hl
  | frame id _ _ label members =>
    rw [Tree.links_of_flat (flat_framedTree t id label members)]
    exact .inl hl
  | relink source target hx => exact .inl (Tree.mem_links_reconnect hl (unreached _ hx))
  | unlink x hx => exact .inl (List.mem_filter.mpr ⟨hl, bne_iff_ne.mpr (unreached x hx)⟩)
  | store x _ value =>
    rw [Tree.links_setSocketDefault]
    exact .inl hl
  | ask side name hN type =>
    refine .inl (Tree.mem_links_socketFor type hl fun s hs => ?_)
    obtain ⟨rfl, rfl⟩ := Tree.of_boundaryNamed? hs
    exact h.unasked s (Tree.mem_of_boundaryNamed? hs) hN
  | keep hN names =>
    refine .inl (Tree.mem_links_keepInputs names hl fun s hs hside => ?_)
    exact h.unasked s hs (hside ▸ hN s.name)

theorem amend (hS : ¬S l.target.socket) (ha : Amends S N t t') : Shielded N l t' where
  target := h.target
  source := h.source
  sourceBelow := Nat.lt_of_lt_of_le h.sourceBelow ha.supply_le
  below := fun x hx => Nat.lt_of_lt_of_le (h.below x hx) ha.supply_le
  unfed := by
    intro n hn hg hin
    rcases ha.descends.nodes n hn hg with ⟨-, hnew⟩ | ⟨m, hm, hid, hinputs, -⟩
    · have hlt := h.below l.target.socket (by simp [Link.touchesSocket])
      exact Nat.lt_irrefl _ (Nat.lt_of_lt_of_le hlt (hnew _ hin))
    · exact h.unfed m hm (hid ▸ hg) (hinputs ▸ hin)
  unasked := by
    intro s hs hN
    rcases ha.descends.boundary s hs with hnew | ⟨r, hr, hid, hside, hname⟩
    · refine Bool.eq_false_iff.mpr fun htouch => ?_
      exact Nat.lt_irrefl _ (Nat.lt_of_lt_of_le (h.below _ htouch) hnew)
    · rw [← hid]
      exact h.unasked r hr (hside ▸ hname ▸ hN)
  link := by
    rcases h.link with hl | hgone
    · exact h.mem_links hS ha hl
    · exact .inr (ha.descends.contains h.sourceBelow h.source hgone)

theorem steps (hS : ¬S l.target.socket) (hs : ReflTransGen (Amends S N) t t') :
    Shielded N l t' := by
  induction hs with
  | refl => exact h
  | tail _ hstep ih => exact ih.amend hS hstep

end Shielded

structure Restocks (S : SocketId → Prop) (t t' : Tree) : Prop where
  supply : t.supply ≤ t'.supply
  boundary : ∃ f : Socket → Socket, (∀ s, ∃ value, f s = Tree.redefault value s) ∧
    (∀ s, ¬S s.id → f s = s) ∧ t'.boundary = t.boundary.map f

namespace Restocks

theorem of_boundary (hs : t.supply ≤ t'.supply) (hb : t'.boundary = t.boundary) : Restocks S t t' :=
  ⟨hs, id, fun s => ⟨s.default, rfl⟩, fun _ _ => rfl, by rw [hb, List.map_id]⟩

theorem trans {t'' : Tree} (h : Restocks S t t') (h' : Restocks S t' t'') : Restocks S t t'' := by
  obtain ⟨hs, f, hf, hkeep, hb⟩ := h
  obtain ⟨hs', g, hg, hkeep', hb'⟩ := h'
  refine ⟨Nat.le_trans hs hs', g ∘ f, fun s => ?_, fun s hS => ?_, by rw [hb', hb, List.map_map]⟩
  · obtain ⟨value, hvalue⟩ := hg (f s)
    obtain ⟨value', hvalue'⟩ := hf s
    refine ⟨value, ?_⟩
    rw [Function.comp_apply, hvalue, hvalue']
    rfl
  · rw [Function.comp_apply, hkeep s hS, hkeep' s hS]

theorem boundary_eq (h : Restocks (fun _ => False) t t') : t'.boundary = t.boundary := by
  obtain ⟨-, f, -, hsame, hb⟩ := h
  rw [hb]
  exact (List.map_congr_left fun s _ => hsame s id).trans (List.map_id _)

end Restocks

theorem Amends.restocks (h : Amends S N t t') (hN : ∀ side name, ¬N side name) :
    Restocks S t t' := by
  have hs := h.supply_le
  cases h with
  | activate id => exact .of_boundary hs rfl
  | make type setup =>
    rw [Tree.addNode_eq] at hs ⊢
    exact .of_boundary hs rfl
  | remove id =>
    refine .of_boundary hs ?_
    unfold Tree.removeNode
    split <;> rfl
  | touch id _ touch => exact .of_boundary hs rfl
  | settle =>
    refine .of_boundary hs ?_
    unfold besideActive
    split <;> rfl
  | frame id _ _ label members => exact .of_boundary hs (Tree.boundary_framedTree id label members)
  | relink source target _ =>
    refine .of_boundary hs ?_
    rw [Tree.reconnect_run]
    split <;> rfl
  | unlink x _ => exact .of_boundary hs rfl
  | store x hx value =>
    cases hb : t.boundarySocket? x with
    | none => exact .of_boundary hs (by rw [Tree.setSocketDefault_of_missing hb])
    | some r =>
      rw [Tree.setSocketDefault_run hb] at hs ⊢
      split
      · exact .of_boundary (Nat.le_refl _) rfl
      · refine ⟨Nat.le_refl _, _, fun s => ?_, fun s hS => if_neg ?_, rfl⟩
        · split
          · exact ⟨_, rfl⟩
          · exact ⟨s.default, rfl⟩
        · intro hid
          exact hS (beq_iff_eq.mp hid ▸ hx)
  | ask side name h _ => exact absurd h (hN side name)
  | keep h names => exact absurd (h "") (hN .input "")

theorem restocks_of_steps (h : ReflTransGen (Amends S N) t t') (hN : ∀ side name, ¬N side name) :
    Restocks S t t' := by
  induction h with
  | refl => exact .of_boundary (Nat.le_refl _) rfl
  | tail _ hstep ih => exact ih.trans (hstep.restocks hN)

end Pass

end FormulaGraph
