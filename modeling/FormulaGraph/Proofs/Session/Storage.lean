import FormulaGraph.Proofs.Graph.Respects
import FormulaGraph.Proofs.Pass.Reuse
import FormulaGraph.Session

/-!
Writing the text of a session into its tree. The text is the label of one frame,
which is made if it is not there. Nothing else of the tree changes.
-/

namespace FormulaGraph.Tree

variable {t : Tree} {x : NodeId} {n : Node} {text : String}

def holding (text : String) (n : Node) : Node := { n with label := text, width := 750 }

def textFrame (t : Tree) (text : String) : Node :=
  holding text (t.addedNode .frame { name := some textFrameName, position := ⟨-1000, 0⟩ })

theorem id_textFrame : (t.textFrame text).id = ⟨t.supply⟩ := rfl

theorem name_textFrame : (t.textFrame text).name = textFrameName := rfl

theorem not_isTag_textFrameName : Tag.isTag textFrameName = false := by decide

theorem writeText_of_found (h : t.nodeNamed? textFrameName = some n) (text : String) :
    t.writeText text = t.modifyNode n.id (holding text) := by
  unfold writeText
  rw [h]
  rfl

theorem writeText_of_missing (h : t.nodeNamed? textFrameName = none) (text : String) :
    t.writeText text =
      (t.addNode .frame { name := some textFrameName, position := ⟨-1000, 0⟩ }).1.modifyNode
        ⟨t.supply⟩ (holding text) := by
  unfold writeText
  rw [h]
  rfl

theorem writeText_eq (h : t.nodeNamed? textFrameName = none)
    (hb : ∀ n ∈ t.nodes, n.id.index < t.supply) (text : String) : t.writeText text =
      { t with nodes := t.nodes ++ [t.textFrame text], supply := t.supply + 1 } := by
  rw [writeText_of_missing h, addNode_eq]
  unfold modifyNode
  dsimp only
  rw [List.map_append, List.map_singleton, id_addedNode, if_pos (beq_self_eq_true _)]
  congr 2
  refine (List.map_congr_left fun n hn => ?_).trans (List.map_id _)
  have hne : ¬n.id = ⟨t.supply⟩ := fun hid => by
    have := hb n hn
    rw [hid] at this
    exact Nat.lt_irrefl _ this
  simp [hne]

theorem editor_writeText (t : Tree) (text : String) : (t.writeText text).editor = t.editor := by
  cases h : t.nodeNamed? textFrameName with
  | some n => rw [writeText_of_found h]; rfl
  | none => rw [writeText_of_missing h, addNode_eq]; rfl

theorem alike_holding (text : String) (n : Node) : (holding text n).Alike n := ⟨rfl, rfl, rfl, rfl⟩

def textFrameId (t : Tree) : NodeId :=
  match t.nodeNamed? textFrameName with
  | some n => n.id
  | none => ⟨t.supply⟩

theorem textFrameId_of_found (h : t.nodeNamed? textFrameName = some n) : t.textFrameId = n.id := by
  unfold textFrameId
  rw [h]

theorem textFrameId_of_missing (h : t.nodeNamed? textFrameName = none) :
    t.textFrameId = ⟨t.supply⟩ := by
  unfold textFrameId
  rw [h]

theorem name_of_nodeNamed? {name : String} (h : t.nodeNamed? name = some n) : n.name = name := by
  simpa using List.find?_some h

theorem mem_of_nodeNamed? {name : String} (h : t.nodeNamed? name = some n) : n ∈ t.nodes :=
  List.mem_of_find?_eq_some h

section Frame

variable (h : t.Sane)
include h

theorem exists_textFrame (text : String) : ∃ n ∈ (t.writeText text).nodes,
    n.id = t.textFrameId ∧ n.name = textFrameName ∧ n.label = text := by
  cases hfound : t.nodeNamed? textFrameName with
  | some n =>
    have hname : n.name = textFrameName := name_of_nodeNamed? hfound
    rw [textFrameId_of_found hfound, writeText_of_found hfound]
    refine ⟨holding text n, List.mem_map.mpr ⟨n, mem_of_nodeNamed? hfound, ?_⟩, rfl, hname, rfl⟩
    rw [if_pos (beq_self_eq_true _)]
  | none =>
    rw [textFrameId_of_missing hfound, writeText_eq hfound h.nodesBelow]
    exact ⟨_, List.mem_append_right _ (List.mem_singleton.mpr rfl), rfl, rfl, rfl⟩

theorem mem_of_mem_writeText (hn : n ∈ (t.writeText text).nodes) (hid : n.id ≠ t.textFrameId) :
    n ∈ t.nodes := by
  cases hfound : t.nodeNamed? textFrameName with
  | some m =>
    rw [textFrameId_of_found hfound] at hid
    rw [writeText_of_found hfound] at hn
    obtain ⟨k, hk, rfl⟩ := List.mem_map.mp hn
    split at hid
    · next heq => exact absurd (beq_iff_eq.mp heq) hid
    · next heq => rwa [if_neg heq]
  | none =>
    rw [textFrameId_of_missing hfound] at hid
    rw [writeText_eq hfound h.nodesBelow] at hn
    rcases List.mem_append.mp hn with hn | hn
    · exact hn
    · rw [List.mem_singleton.mp hn] at hid
      exact absurd rfl hid

theorem keeps_writeText (text : String) : Keeps (· ≠ t.textFrameId) t (t.writeText text) := by
  have hold : ∀ {u : Tree} {x : NodeId}, u.Sane →
      Keeps (· ≠ x) u (u.modifyNode x (holding text)) := fun hu =>
    (Local.modifyNode (f := holding text) (fun _ => rfl) (alike_holding text)
      fun _ => ⟨rfl, rfl, rfl⟩).keeps hu (not_not.mpr rfl)
  cases hfound : t.nodeNamed? textFrameName with
  | some n =>
    rw [textFrameId_of_found hfound, writeText_of_found hfound]
    exact hold h
  | none =>
    rw [textFrameId_of_missing hfound, writeText_of_missing hfound]
    exact (keeps_others_addNode h).trans (hold h.addNode) fun _ hx => hx

end Frame

namespace Regular

/-- Changes of what no identity, frame or type rests on. -/
theorem modifyNode (h : t.Regular) {f : Node → Node} (hid : ∀ n, (f n).id = n.id)
    (ha : ∀ n, (f n).Alike n) (hp : ∀ n, (f n).parent = n.parent)
    (htype : ∀ n, (f n).type = n.type) : (t.modifyNode x f).Regular where
  sane := h.sane.modifyNode hid ha
  nested := h.nested.modifyNode hid hp
  supply := h.supply
  groups := by
    intro n hn hg
    obtain ⟨m, hm, rfl⟩ := List.mem_map.mp hn
    by_cases hx : (m.id == x) = true
    · rw [if_pos hx] at hg ⊢
      rw [htype]
      exact h.groups m hm (hid m ▸ hg)
    · rw [if_neg hx] at hg ⊢
      exact h.groups m hm hg
  parents := by
    intro n hn y hy
    obtain ⟨m, hm, rfl⟩ := List.mem_map.mp hn
    split at hy
    · exact h.parents m hm y (hp m ▸ hy)
    · exact h.parents m hm y hy
  distinct := h.distinct
  below := h.below
  apart := by
    intro s hs y n hn hx
    rw [node?_modifyNode hid] at hn
    obtain ⟨m, hm, rfl⟩ := Option.map_eq_some_iff.mp hn
    refine h.apart s hs y m hm ?_
    split at hx
    · exact (ha m).socketIds ▸ hx
    · exact hx

theorem addNode (h : t.Regular) (type : NodeType) (setup : NodeSetup) :
    (t.addNode type setup).1.Regular where
  sane := h.sane.addNode
  nested := h.nested.addNode h.sane.nodesBelow type setup
  supply := by
    rw [addNode_eq]
    exact Nat.le_trans h.supply (Nat.le_add_right _ _)
  groups := by
    intro n hn hg
    rw [addNode_eq] at hn
    rcases List.mem_append.mp hn with hn | hn
    · exact h.groups n hn hg
    · rw [List.mem_singleton.mp hn, id_addedNode, (h.made_supply (Nat.le_refl _)).1] at hg
      cases hg
  parents := by
    intro n hn y hy
    rw [addNode_eq] at hn ⊢
    rcases List.mem_append.mp hn with hn | hn
    · exact Nat.lt_of_lt_of_le (h.parents n hn y hy) (Nat.le_add_right _ _)
    · rw [List.mem_singleton.mp hn, parent_addedNode] at hy
      cases hy
  distinct := by
    rw [addNode_eq]
    exact h.distinct
  below := by
    intro s hs
    rw [addNode_eq] at hs ⊢
    exact Nat.lt_of_lt_of_le (h.below s hs) (Nat.le_add_right _ _)
  apart := by
    intro s hs y n hn hx
    rw [node?_addNode h.sane.nodesBelow] at hn
    rw [addNode_eq] at hs
    split at hn
    · cases hn
      rw [socketIds_addedNode] at hx
      obtain ⟨i, hi, hs'⟩ := List.mem_map.mp hx
      have := h.below s hs
      rw [← hs'] at this
      exact absurd this (Nat.not_lt.mpr (Nat.le_of_succ_le (List.mem_range'_1.mp hi).1))
    · exact h.apart s hs y n hn hx

theorem writeText (h : t.Regular) (text : String) : (t.writeText text).Regular := by
  have hold : ∀ {t : Tree} {x : NodeId}, t.Regular → (t.modifyNode x (holding text)).Regular :=
    fun ht => ht.modifyNode (fun _ => rfl) (alike_holding text) (fun _ => rfl) fun _ => rfl
  cases hfound : t.nodeNamed? textFrameName with
  | some n =>
    rw [writeText_of_found hfound]
    exact hold h
  | none =>
    rw [writeText_of_missing hfound]
    exact hold (h.addNode _ _)

end Regular

namespace Regular

variable (h : t.Regular)
include h

theorem name_of_textFrameId (hn : n ∈ (t.writeText text).nodes) (hid : n.id = t.textFrameId) :
    n.name = textFrameName := by
  have hnodes := (h.writeText text).sane.nodes
  obtain ⟨m, hm, hid', hname, -⟩ := exists_textFrame h.sane text
  rw [List.inj_on_of_nodup_map hnodes hn hm (hid.trans hid'.symm), hname]

theorem not_isGroup_textFrameId
    (hframe : ∀ n, t.nodeNamed? textFrameName = some n → n.id.isGroup = false) :
    t.textFrameId.isGroup = false := by
  cases hfound : t.nodeNamed? textFrameName with
  | some n =>
    rw [textFrameId_of_found hfound]
    exact hframe n hfound
  | none =>
    rw [textFrameId_of_missing hfound]
    exact (h.made_supply (Nat.le_refl _)).1

end Regular

theorem Hosted.writeText (h : t.Hosted) (text : String) : (t.writeText text).Hosted := by
  have hold : ∀ {t : Tree} {x : NodeId}, t.Hosted → (t.modifyNode x (holding text)).Hosted :=
    fun ht => ht.modifyNode (fun _ => rfl) (fun _ => ⟨rfl, rfl⟩) (fun _ _ => ⟨rfl, rfl, rfl⟩)
      fun _ _ hp => .inl hp
  cases hfound : t.nodeNamed? textFrameName with
  | some n =>
    rw [writeText_of_found hfound]
    exact hold h
  | none =>
    rw [writeText_of_missing hfound]
    exact hold h.addNode

end FormulaGraph.Tree
