import FormulaGraph.Proofs.Pass.Tandem

/-!
The nodes that a pass can find, by tag and type. What becomes of this catalog,
and how many nodes are made, follows from the catalog alone. So passes that
start with the same catalog make as many nodes, whatever else is in their trees.
-/

namespace FormulaGraph

open Run

theorem lookup_map_snd {β γ : Type} (f : β → γ) (l : List (String × β)) (key : String) :
    (l.map fun e => (e.1, f e.2)).lookup key = (l.lookup key).map f := by
  induction l with
  | nil => rfl
  | cons e rest ih =>
    obtain ⟨name, b⟩ := e
    rw [List.map_cons, List.lookup_cons, List.lookup_cons]
    cases key == name with
    | true => rfl
    | false => exact ih

namespace Pass

variable {p q : Pass} {tag : String} {type : NodeType} {settings : List (String × String)}
  {id x : NodeId}

def typeOf? (p : Pass) (x : NodeId) : Option NodeType := (p.tree.node? x).map (·.type)

def catalog (p : Pass) : List (String × Option NodeType) :=
  p.index.map fun e => (e.1, p.typeOf? e.2)

/-- A catalog, and the number of nodes made, after a node was got for a tag. -/
def entered (tag : String) (type : NodeType) (catalog : List (String × Option NodeType))
    (created : Nat) : List (String × Option NodeType) × Nat :=
  match catalog.lookup tag with
  | none => ((tag, some type) :: catalog, created + 1)
  | some found =>
    if found = some type then (catalog, created)
    else ((tag, some type) :: catalog.filter (·.1 != tag), created + 1)

/-- Tags lead to nodes of their name, and what is made next is new. -/
structure Filed (p : Pass) : Prop where
  below : ∀ x n, p.tree.node? x = some n → x.index < p.tree.supply
  named : ∀ e ∈ p.index, (p.tree.node? e.2).map (·.name) = some e.1

theorem name_of_look (h : (q.tree.node? x).map Node.look = (p.tree.node? x).map Node.look) :
    (q.tree.node? x).map (·.name) = (p.tree.node? x).map (·.name) := by
  have := congrArg (Option.map Prod.fst) h
  rwa [Option.map_map, Option.map_map] at this

theorem typeOf?_of_look
    (h : (q.tree.node? x).map Node.look = (p.tree.node? x).map Node.look) :
    q.typeOf? x = p.typeOf? x := by
  have := congrArg (Option.map Prod.snd) h
  rwa [Option.map_map, Option.map_map] at this

theorem catalog_steady (h : Steady p q) : q.catalog = p.catalog := by
  unfold catalog
  rw [h.index]
  refine List.map_congr_left fun e _ => ?_
  rw [typeOf?_of_look (h.looks e.2)]

namespace Filed

theorem steady (h : p.Filed) (hs : Steady p q) : q.Filed where
  below := by
    intro x n hn
    have hlook := hs.looks x
    rw [hn] at hlook
    obtain ⟨m, hm, -⟩ := Option.map_eq_some_iff.mp hlook.symm
    exact Nat.lt_of_lt_of_le (h.below x m hm) hs.supply
  named := by
    rw [hs.index]
    intro e he
    rw [name_of_look (hs.looks e.2)]
    exact h.named e he

/-- A new node under a tag. -/
theorem made (h : p.Filed) (tag : String) (type : NodeType) (settings : List (String × String)) :
    (p.made tag type settings).Filed ∧
      (p.made tag type settings).catalog = (tag, some type) :: p.catalog := by
  have hnodes : ∀ n ∈ p.tree.nodes, n.id.index < p.tree.supply := by
    intro n hn
    obtain ⟨m, hm⟩ := Tree.node?_isSome_of_mem hn
    exact h.below n.id m hm
  have hnode : ∀ x, (p.made tag type settings).tree.node? x = _ := fun x =>
    Tree.node?_addNode (x := x) hnodes
  have hold : ∀ e ∈ p.index, (p.made tag type settings).tree.node? e.2 = p.tree.node? e.2 := by
    intro e he
    obtain ⟨n, hn, -⟩ := Option.map_eq_some_iff.mp (h.named e he)
    rw [hnode, if_neg]
    intro hid
    have := h.below e.2 n hn
    rw [hid] at this
    exact Nat.lt_irrefl _ this
  refine ⟨⟨fun x n hn => ?_, List.forall_mem_cons.mpr ⟨?_, fun e he => ?_⟩⟩, ?_⟩
  · have hsupply : p.tree.supply < (p.made tag type settings).tree.supply := by
      unfold Pass.made
      rw [Tree.addNode_eq]
      exact Nat.lt_add_of_pos_right (Nat.add_pos_left (Nat.add_pos_left Nat.one_pos _) _)
    rw [hnode] at hn
    split at hn
    · next hx =>
      rw [hx]
      exact hsupply
    · exact Nat.lt_trans (h.below x n hn) hsupply
  · rw [hnode, if_pos rfl]
    rfl
  · rw [hold e he]
    exact h.named e he
  · unfold catalog
    show List.map _ (_ :: p.index) = _
    rw [List.map_cons, typeOf?, hnode, if_pos rfl]
    refine congrArg (List.cons _) (List.map_congr_left fun e he => ?_)
    rw [typeOf?, hold e he, typeOf?]

/-- The node of a tag is removed, and those of other tags stay. -/
theorem cleared (h : p.Filed) (hfound : (tag, id) ∈ p.index) : (p.cleared tag id).Filed ∧
    (p.cleared tag id).catalog = p.catalog.filter (·.1 != tag) := by
  have hlook : ∀ x, x ≠ id →
      ((p.cleared tag id).tree.node? x).map Node.look = (p.tree.node? x).map Node.look := by
    intro x hx
    show ((p.tree.removeNode id).node? x).map Node.look = _
    cases hg : id.isGroup with
    | true => rw [Tree.removeNode, if_pos hg]
    | false =>
      rw [Tree.node?_removeNode hg, if_neg hx, Option.map_map]
      refine Option.map_congr fun n _ => ?_
      show (Tree.leaving id n).look = n.look
      unfold Tree.leaving
      split <;> rfl
  have hother : ∀ e ∈ (p.cleared tag id).index, e ∈ p.index ∧ e.2 ≠ id := by
    intro e he
    obtain ⟨he, hne⟩ := List.mem_filter.mp he
    refine ⟨he, fun hid => ?_⟩
    have hname := h.named e he
    rw [hid, h.named _ hfound] at hname
    cases hname
    simp at hne
  refine ⟨⟨fun x n hn => ?_, fun e he => ?_⟩, ?_⟩
  · have hkept : ∃ m, p.tree.node? x = some m := by
      change (p.tree.removeNode id).node? x = some n at hn
      cases hg : id.isGroup with
      | true =>
        rw [Tree.removeNode, if_pos hg] at hn
        exact ⟨n, hn⟩
      | false =>
        rw [Tree.node?_removeNode hg] at hn
        split at hn
        · cases hn
        · obtain ⟨m, hm, -⟩ := Option.map_eq_some_iff.mp hn
          exact ⟨m, hm⟩
    obtain ⟨m, hm⟩ := hkept
    have hsupply : (p.tree.removeNode id).supply = p.tree.supply := by
      unfold Tree.removeNode
      split <;> rfl
    exact hsupply ▸ h.below x m hm
  · obtain ⟨he, hne⟩ := hother e he
    rw [name_of_look (hlook e.2 hne)]
    exact h.named e he
  · unfold catalog
    rw [List.filter_map]
    refine List.map_congr_left fun e he => ?_
    rw [typeOf?_of_look (hlook e.2 (hother e he).2)]

/-- Getting a node goes by the catalog. -/
theorem nodeFor (h : p.Filed) (hrun : nodeFor tag type settings p = (.ok x, q)) :
    q.Filed ∧ (q.catalog, q.created) = entered tag type p.catalog p.created := by
  have make : ∀ {p : Pass}, p.Filed → makeNode tag type settings p = (.ok x, q) →
      q.Filed ∧ (q.catalog, q.created) = ((tag, some type) :: p.catalog, p.created + 1) := by
    intro p hp hmake
    rw [makeNode_run] at hmake
    split at hmake
    · cases hmake
      obtain ⟨hfiled, hcatalog⟩ := hp.made tag type settings
      exact ⟨hfiled, Prod.ext hcatalog rfl⟩
    · cases hmake
  have hlooked : p.catalog.lookup tag = (p.index.lookup tag).map p.typeOf? :=
    lookup_map_snd p.typeOf? p.index tag
  rw [nodeFor_run] at hrun
  rw [entered, hlooked]
  cases hlookup : p.index.lookup tag with
  | none =>
    rw [hlookup] at hrun
    exact make h hrun
  | some id =>
    have hmem : (tag, id) ∈ p.index := mem_of_lookup hlookup
    obtain ⟨n, hn, -⟩ := Option.map_eq_some_iff.mp (h.named _ hmem)
    rw [hlookup] at hrun
    dsimp only at hrun ⊢
    rw [hn] at hrun
    rw [Option.map_some, typeOf?, hn, Option.map_some]
    dsimp only at hrun ⊢
    by_cases htype : n.type = type
    · rw [if_pos htype] at hrun
      rw [if_pos (congrArg some htype)]
      cases hrun
      have hedit : Steady p { p with tree := p.tree.modifyNode x (refresh settings) } := by
        refine .modifyNode ?_ p
        exact fun _ => ⟨rfl, rfl⟩
      have hs : Steady p (p.reused settings x) :=
        ⟨hedit.editor, hedit.index, hedit.created, hedit.supply, hedit.looks⟩
      exact ⟨h.steady hs, Prod.ext (catalog_steady hs) rfl⟩
    · rw [if_neg htype] at hrun
      rw [if_neg fun heq => htype (Option.some.inj heq)]
      obtain ⟨hfiled, hcatalog⟩ := h.cleared hmem
      obtain ⟨hq, heq⟩ := make hfiled hrun
      exact ⟨hq, heq.trans (by rw [hcatalog]; rfl)⟩

end Filed

/-- Passes that find nodes under the same tags and have made as many. -/
structure Catalogued (p p' : Pass) : Prop where
  left : p.Filed
  right : p'.Filed
  same : (p'.catalog, p'.created) = (p.catalog, p.created)

theorem companion_catalogued : Companion Catalogued where
  steady := by
    intro p p' q q' h hs hs'
    refine ⟨h.left.steady hs, h.right.steady hs', ?_⟩
    rw [catalog_steady hs, catalog_steady hs', hs.created, hs'.created]
    exact h.same
  nodeFor := by
    intro p p' q q' tag type settings x x' h hrun hrun'
    obtain ⟨hq, heq⟩ := h.left.nodeFor hrun
    obtain ⟨hq', heq'⟩ := h.right.nodeFor hrun'
    obtain ⟨hcatalog, hcreated⟩ := Prod.mk.inj h.same
    exact ⟨hq, hq', by rw [heq', heq, hcatalog, hcreated]⟩

end Pass

end FormulaGraph
