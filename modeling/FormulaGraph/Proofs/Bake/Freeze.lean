import FormulaGraph.Proofs.Bake.Worked

/-!
What baking makes of a tree that was worked on. The text frame is gone, the
generated nodes have plain names, and all else is as it was. Passes over the
baked tree start afresh beside what is in it.
-/

namespace FormulaGraph

namespace Node

variable {n : Node}

theorem untagged_of_plain (h : Tag.isTag n.name = false) : n.untagged = n := by
  rw [untagged, if_neg (by simp [h])]

theorem untagged_eq (n : Node) :
    n.untagged = { n with name := n.untagged.name, label := n.untagged.label } := by
  unfold untagged
  split <;> rfl

theorem id_untagged (n : Node) : n.untagged.id = n.id := by rw [untagged_eq]

theorem type_untagged (n : Node) : n.untagged.type = n.type := by rw [untagged_eq]

theorem parent_untagged (n : Node) : n.untagged.parent = n.parent := by rw [untagged_eq]

theorem matches_untagged (n : Node) : n.untagged.Matches n := by
  rw [untagged_eq]
  exact .of_eq rfl rfl

end Node

namespace Tree

theorem exists_nodeNamed? {t : Tree} {n : Node} {name : String} (hn : n ∈ t.nodes)
    (hname : n.name = name) : ∃ m, t.nodeNamed? name = some m := by
  rw [← Option.isSome_iff_exists, nodeNamed?, List.find?_isSome]
  exact ⟨n, hn, beq_iff_eq.mpr hname⟩

namespace Bakeable

variable {t : Tree} {n n' : Node} {x : NodeId} (h : t.Bakeable)
include h

/-- Nothing is in the text frame or linked to it. -/
theorem alone (hn : n ∈ t.nodes) (hname : n.name = textFrameName) :
    (∀ m ∈ t.nodes, m.parent ≠ some n.id) ∧ ∀ l ∈ t.links, l.touchesNode n.id = false := by
  have hfound := node?_of_mem h.tidy.sane.nodes hn
  have hblank := h.blank n hn (h.isOwn_of_name hn hname)
  constructor
  · intro m hm hp
    obtain ⟨tag, hframe⟩ := h.framed.inside m.id n.id
      (inFrame_iff.mpr ⟨m, node?_of_mem h.tidy.sane.nodes hm, hp⟩)
    rw [hfound, Option.map_some, hname] at hframe
    have htag := Tag.isTag_frame tag
    rw [← Option.some.inj hframe, not_isTag_textFrameName] at htag
    cases htag
  · intro l hl
    have hne : ∀ {r : SocketRef} {m : Node}, t.node? r.node = some m → r.socket ∈ m.socketIds →
        r.node ≠ n.id := by
      intro r m hm hx heq
      rw [heq, hfound] at hm
      cases hm
      rw [hblank] at hx
      cases hx
    obtain ⟨⟨a, ha, hx⟩, ⟨b, hb, hy⟩⟩ := h.tidy.sane.ends l hl
    simp [Link.touchesNode, hne ha (List.mem_append_right _ hx), hne hb (List.mem_append_left _ hy)]

theorem name_iff (hn : t.nodeNamed? textFrameName = some n) (hn' : n' ∈ t.nodes) :
    n'.name = textFrameName ↔ n'.id = n.id := by
  have hmem := mem_of_nodeNamed? hn
  constructor
  · intro hname
    rcases h.noted with hnone | ⟨text, hnote⟩
    · rw [h.nodeNamed?_of_no_note hnone] at hn
      cases hn
    · obtain ⟨m, -, hown⟩ := h.nodeNamed?_of_note hnote
      have single : ∀ {k : Node}, k ∈ t.nodes → k.name = textFrameName → k = m := by
        intro k hk hkname
        have : k ∈ t.nodes.filter Node.isOwn :=
          List.mem_filter.mpr ⟨hk, h.isOwn_of_name hk hkname⟩
        rwa [hown, List.mem_singleton] at this
      rw [single hn' hname, single hmem (name_of_nodeNamed? hn)]
  · intro hid
    rw [List.inj_on_of_nodup_map h.tidy.sane.nodes hn' hmem hid]
    exact name_of_nodeNamed? hn

theorem bake_eq : t.bake =
    { t with
      nodes := (t.nodes.filter (·.name != textFrameName)).map Node.untagged
      active := t.active.filter (· != t.textFrameId) } := by
  unfold bake
  cases hfound : t.nodeNamed? textFrameName with
  | none =>
    have hall : t.nodes.filter (·.name != textFrameName) = t.nodes := by
      refine List.filter_eq_self.mpr fun n hn => ?_
      simpa using List.find?_eq_none.mp hfound n hn
    have hactive : t.active.filter (· != t.textFrameId) = t.active := by
      cases hid : t.active with
      | none => rfl
      | some id =>
        obtain ⟨n, hn⟩ := contains_iff.mp (h.hosted.active id hid)
        have hbelow := h.tidy.sane.nodesBelow n (mem_of_node? hn)
        have hne : id ≠ ⟨t.supply⟩ := by
          rintro rfl
          rw [id_of_node? hn] at hbelow
          exact Nat.lt_irrefl _ hbelow
        simp [Option.filter, textFrameId_of_missing hfound, hne]
    rw [hall, hactive]
  | some n =>
    have hmem := mem_of_nodeNamed? hfound
    have hname := name_of_nodeNamed? hfound
    obtain ⟨hparents, hlinks⟩ := h.alone hmem hname
    have hg : n.id.isGroup = false := Bool.eq_false_iff.mpr fun hg => h.names n hmem hg hname
    have hnodes : ((t.nodes.filter (·.id != n.id)).map fun m =>
        { m with parent := m.parent.filter (· != n.id) }) =
          t.nodes.filter (·.name != textFrameName) := by
      have hfilter : t.nodes.filter (·.id != n.id) = t.nodes.filter (·.name != textFrameName) := by
        refine List.filter_congr fun m hm => ?_
        rw [Bool.eq_iff_iff, bne_iff_ne, bne_iff_ne, ne_eq, ne_eq, h.name_iff hfound hm]
      rw [hfilter]
      refine (List.map_congr_left fun m hm => ?_).trans (List.map_id _)
      have hp := hparents m (List.mem_filter.mp hm).1
      have : m.parent.filter (· != n.id) = m.parent := by
        cases hparent : m.parent with
        | none => rfl
        | some f =>
          have : f ≠ n.id := fun heq => hp (heq ▸ hparent)
          simp [Option.filter, this]
      rw [this]
      rfl
    have hkept : t.links.filter (!·.touchesNode n.id) = t.links :=
      List.filter_eq_self.mpr fun l hl => by simp [hlinks l hl]
    dsimp only
    rw [removeNode_eq hg, hnodes, hkept, textFrameId_of_found hfound]

theorem nodes_bake :
    t.bake.nodes = (t.nodes.filter (·.name != textFrameName)).map Node.untagged := by
  rw [h.bake_eq]

theorem mem_bake : n' ∈ t.bake.nodes ↔ ∃ n ∈ t.nodes, n.name ≠ textFrameName ∧ n.untagged = n' := by
  rw [h.nodes_bake, List.mem_map]
  simp only [List.mem_filter, bne_iff_ne, and_assoc]

theorem ids_bake : (t.bake.nodes.map (·.id)).Sublist (t.nodes.map (·.id)) := by
  rw [h.nodes_bake, List.map_map]
  have : (fun n : Node => n.id) ∘ Node.untagged = fun n => n.id := funext Node.id_untagged
  rw [this]
  exact List.filter_sublist.map _

theorem node?_bake :
    t.bake.node? x = some n' ↔ ∃ n, t.node? x = some n ∧ n.name ≠ textFrameName ∧
      n.untagged = n' := by
  constructor
  · intro hn'
    obtain ⟨n, hn, hname, rfl⟩ := h.mem_bake.mp (mem_of_node? hn')
    have hid := id_of_node? hn'
    rw [Node.id_untagged] at hid
    exact ⟨n, hid ▸ node?_of_mem h.tidy.sane.nodes hn, hname, rfl⟩
  · rintro ⟨n, hn, hname, rfl⟩
    have := node?_of_mem (h.tidy.sane.nodes.sublist h.ids_bake)
      (h.mem_bake.mpr ⟨n, mem_of_node? hn, hname, rfl⟩)
    rwa [Node.id_untagged, id_of_node? hn] at this

theorem name_of_mem_bake (hn' : n' ∈ t.bake.nodes) :
    Tag.isTag n'.name = false ∧ n'.name ≠ textFrameName := by
  obtain ⟨n, hn, hname, rfl⟩ := h.mem_bake.mp hn'
  cases htag : Tag.isTag n.name with
  | true => exact h.legible.name_untagged (node?_of_mem h.tidy.sane.nodes hn) htag
  | false =>
    rw [Node.untagged_of_plain htag]
    exact ⟨htag, hname⟩

theorem untagged_bake : t.bake.Untagged := fun _ hn => (h.name_of_mem_bake hn).1

theorem bake_bake : t.bake.bake = t.bake := by
  have hnone : t.bake.nodeNamed? textFrameName = none := by
    refine List.find?_eq_none.mpr fun n hn => ?_
    simpa using (h.name_of_mem_bake hn).2
  have hnodes : t.bake.nodes.map Node.untagged = t.bake.nodes :=
    (List.map_congr_left fun n hn => Node.untagged_of_plain (h.untagged_bake n hn)).trans
      (List.map_id _)
  rw [bake, hnone]
  dsimp only
  rw [hnodes]

theorem node?_bake_of_socket {s : SocketId} (hn : t.node? x = some n) (hs : s ∈ n.socketIds) :
    t.bake.node? x = some n.untagged := by
  refine h.node?_bake.mpr ⟨n, hn, fun hname => ?_, rfl⟩
  rw [h.blank n (mem_of_node? hn) (h.isOwn_of_name (mem_of_node? hn) hname)] at hs
  cases hs

theorem sane_bake : t.bake.Sane := by
  have hlinks : t.bake.links = t.links := by rw [h.bake_eq]
  refine h.tidy.sane.shrink h.ids_bake ?_ (by rw [hlinks]) ?_ (by rw [h.bake_eq])
  · intro x n' hn'
    obtain ⟨n, hn, -, rfl⟩ := h.node?_bake.mp hn'
    exact ⟨n, hn, n.matches_untagged.alike⟩
  · intro l hl
    rw [hlinks] at hl
    obtain ⟨⟨a, ha, hx⟩, ⟨b, hb, hy⟩⟩ := h.tidy.sane.ends l hl
    rw [h.node?_bake_of_socket ha (List.mem_append_right _ hx),
      h.node?_bake_of_socket hb (List.mem_append_left _ hy)]
    exact ⟨rfl, rfl⟩

theorem node?_bake_of_group (hg : x.isGroup = true) : t.bake.node? x = t.node? x := by
  have plain : ∀ {n}, t.node? x = some n → n.name ≠ textFrameName ∧ n.untagged = n := by
    intro n hn
    refine ⟨h.names n (mem_of_node? hn) (id_of_node? hn ▸ hg), Node.untagged_of_plain ?_⟩
    refine Bool.eq_false_iff.mpr fun htag => ?_
    rw [h.tidy.grouped.not_group hn htag] at hg
    cases hg
  refine Option.ext fun n' => h.node?_bake.trans ⟨?_, fun hn => ?_⟩
  · rintro ⟨n, hn, -, rfl⟩
    rw [(plain hn).2, hn]
  · exact ⟨n', hn, plain hn⟩

theorem grouped_bake : t.bake.Grouped := by
  have hin := h.node?_bake_of_group (x := .groupInput) rfl
  have hout := h.node?_bake_of_group (x := .groupOutput) rfl
  have hshown : ∀ side, t.bake.shownInside side = t.shownInside side := fun side => by
    rw [h.bake_eq]
    rfl
  refine ⟨?_, ?_, ?_⟩
  · rw [hin, hshown]
    exact h.tidy.grouped.input
  · rw [hout, hshown]
    exact h.tidy.grouped.output
  · rw [h.bake_eq]
    exact h.tidy.grouped.distinct

theorem tidy_bake : t.bake.Tidy := by
  refine ⟨h.sane_bake, h.grouped_bake, ?_, ?_, ?_⟩
  · rw [h.node?_bake_of_group rfl]
    exact h.tidy.source
  · rw [h.node?_bake_of_group rfl]
    exact h.tidy.sink
  · intro x n hn htag
    rw [h.untagged_bake n (mem_of_node? hn)] at htag
    cases htag

theorem homed_bake : t.bake.Homed := by
  intro n' hn' f hf
  obtain ⟨n, hn, -, rfl⟩ := h.mem_bake.mp hn'
  rw [n.parent_untagged] at hf
  obtain ⟨tag, hframe⟩ := h.framed.inside n.id f
    (inFrame_iff.mpr ⟨n, node?_of_mem h.tidy.sane.nodes hn, hf⟩)
  obtain ⟨m, hm, hname⟩ := Option.map_eq_some_iff.mp hframe
  have htag : Tag.isTag m.name = true := hname ▸ Tag.isTag_frame tag
  refine ⟨contains_iff.mpr ⟨m.untagged, h.node?_bake.mpr ⟨m, hm, fun heq => ?_, rfl⟩⟩,
    h.tidy.grouped.not_group hm htag⟩
  rw [heq, not_isTag_textFrameName] at htag
  cases htag

theorem hosted_bake : t.bake.Hosted := by
  have hlinks : t.bake.links = t.links := by rw [h.bake_eq]
  have hboundary : t.bake.boundary = t.boundary := by rw [h.bake_eq]
  refine ⟨h.sane_bake, h.grouped_bake, ?_, ?_, ?_, ?_, ?_, ?_⟩
  · intro l hl
    rw [hlinks] at hl
    refine (h.hosted.joins l hl).of_nodes fun x htouches n hn => ?_
    refine ⟨n.untagged, h.node?_bake.mpr ⟨n, hn, fun hname => ?_, rfl⟩, n.matches_untagged⟩
    have := (h.alone (mem_of_node? hn) hname).2 l hl
    rw [id_of_node? hn, htouches] at this
    cases this
  · exact h.hosted.acyclic.mono (by rw [hlinks]; exact List.Subset.refl _)
  · rw [hboundary]
    exact h.hosted.names
  · rw [hboundary, show t.bake.editor = t.editor by rw [h.bake_eq]]
    exact h.hosted.sockets
  · intro id hid
    rw [h.bake_eq] at hid
    obtain ⟨hactive, hne⟩ := Option.filter_eq_some_iff.mp hid
    obtain ⟨n, hn⟩ := contains_iff.mp (h.hosted.active id hactive)
    refine contains_iff.mpr ⟨n.untagged, h.node?_bake.mpr ⟨n, hn, fun hname => ?_, rfl⟩⟩
    obtain ⟨m, hm⟩ := exists_nodeNamed? (mem_of_node? hn) hname
    rw [textFrameId_of_found hm, bne_iff_ne, ← id_of_node? hn] at hne
    exact hne ((h.name_iff hm (mem_of_node? hn)).mp hname)
  · exact fun n hn f hf => (h.homed_bake n hn f hf).1

theorem regular_bake : t.bake.Regular := by
  refine h.hosted_bake.regular ?_ ?_
  · refine h.regular.nested.mono fun x f hin => ?_
    obtain ⟨n', hn', hp⟩ := inFrame_iff.mp hin
    obtain ⟨n, hn, -, rfl⟩ := h.node?_bake.mp hn'
    exact inFrame_iff.mpr ⟨n, hn, n.parent_untagged ▸ hp⟩
  · intro n' hn' hg
    obtain ⟨n, hn, -, rfl⟩ := h.mem_bake.mp hn'
    rw [n.type_untagged]
    exact h.regular.groups n hn (n.id_untagged ▸ hg)

end Bakeable

/-- Baking freezes a tree that was worked on. The text frame is gone, no tag is
left, and the other nodes are the same but for the names and labels of those
that were generated. Baking again changes nothing. Whatever is compiled into the
baked tree, its nodes stay as they are, group nodes apart, with just the links
that there were between them. A first call that succeeds makes as many nodes as
in a new tree. -/
theorem bake_freezes {t : Tree} (h : Worked t) :
    (∀ n ∈ t.bake.nodes, Tag.isTag n.name = false ∧ n.name ≠ textFrameName) ∧
      List.Forall₂ (fun n n' => n' = n ∨ Tag.isTag n.name = true ∧
          n' = { n with name := n'.name, label := n'.label })
        (t.nodes.filter (·.name != textFrameName)) t.bake.nodes ∧
      t.bake.links = t.links ∧ t.bake.boundary = t.boundary ∧ t.bake.editor = t.editor ∧
      t.bake.bake = t.bake ∧
      (∀ calls,
        (∀ n ∈ t.bake.nodes, n.id.isGroup = false → (t.bake.after calls).node? n.id = some n) ∧
        ∀ l, t.bake.contains l.source.node = true → l.source.node.isGroup = false →
          t.bake.contains l.target.node = true → l.target.node.isGroup = false →
          (l ∈ (t.bake.after calls).links ↔ l ∈ t.bake.links)) ∧
      ∀ text options report, (compile text options t.bake).1 = .ok report →
        ∃ report', (compile text options (empty t.editor)).1 = .ok report' ∧
          report'.created = report.created := by
  have hb := h.bakeable
  have heditor : t.bake.editor = t.editor := by rw [hb.bake_eq]
  refine ⟨fun _ => hb.name_of_mem_bake, ?_, by rw [hb.bake_eq], by rw [hb.bake_eq], heditor,
    hb.bake_bake, fun calls => ?_, fun text options report hok => ?_⟩
  · rw [hb.nodes_bake, List.forall₂_map_right_iff]
    refine List.forall₂_same.mpr fun n _ => ?_
    cases htag : Tag.isTag n.name with
    | true => exact .inr ⟨rfl, n.untagged_eq⟩
    | false => exact .inl (Node.untagged_of_plain htag)
  · have hrests := hb.untagged_bake.rests hb.tidy_bake hb.hosted_bake hb.regular_bake
    have hafter := hrests.after hb.untagged_bake hb.homed_bake calls
    exact ⟨hafter.nodes, hafter.links⟩
  · rw [← heditor]
    exact created_of_compile hb.tidy_bake hb.untagged_bake hok

theorem bake_freezes_batch :
    ∃ t, Worked t ∧ t = ((Session.Call.setText "min(a,b,c)").step
        ⟨{}, (compile "-a" {} (empty .geometry)).2⟩).2.tree ∧
      t.nodes.map (·.name) = ["Group Input", "Group Output", "EquationStorage",
        "F|min(f0,f1)", "F|min(f3,f2)", "G|F|min(f0,f1,f2)"] ∧
      t.bake.nodes.map (·.name) = ["Group Input", "Group Output", "min", "min", "Batch MinMax"] ∧
      t.bake.links = t.links ∧ t.bake.bake = t.bake ∧
      (∀ n ∈ t.bake.nodes, n.id.isGroup = false →
        (t.bake.after [("min(a,b,c)", {}), ("a+", {})]).node? n.id = some n) ∧
      (compile "min(a,b,c)" {} t.bake).1 = .ok ⟨3, 3, 0, .scalar⟩ ∧
      ∃ report, (compile "min(a,b,c)" {} (empty t.editor)).1 = .ok report ∧ report.created = 3 := by
  let t := ((Session.Call.setText "min(a,b,c)").step
    ⟨{}, (compile "-a" {} (empty .geometry)).2⟩).2.tree
  have hworked : Worked t := .call (.compile (.empty .geometry) "-a" {}) {} _
  have hrun : t.nodes.map (·.name) = ["Group Input", "Group Output", "EquationStorage",
        "F|min(f0,f1)", "F|min(f3,f2)", "G|F|min(f0,f1,f2)"] ∧
      t.bake.nodes.map (·.name) = ["Group Input", "Group Output", "min", "min", "Batch MinMax"] ∧
      (compile "min(a,b,c)" {} t.bake).1 = .ok ⟨3, 3, 0, .scalar⟩ := by decide +kernel
  obtain ⟨hnames, hbaked, hok⟩ := hrun
  obtain ⟨-, -, hlinks, -, -, hagain, hafter, hcreated⟩ := bake_freezes hworked
  exact ⟨t, hworked, rfl, hnames, hbaked, hlinks, hagain,
    (hafter [("min(a,b,c)", {}), ("a+", {})]).1, hok, hcreated _ _ _ hok⟩

end Tree

end FormulaGraph
