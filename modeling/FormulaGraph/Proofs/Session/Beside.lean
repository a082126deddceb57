import FormulaGraph.Proofs.HostNodes
import FormulaGraph.Proofs.Session.InsertionEdits
import FormulaGraph.Proofs.Session.Storage

/-!
A pass over a tree beside one over the same tree with a text written into it.
The two walk over trees that differ by a text frame, so they end alike and leave
trees that differ by no more.
-/

namespace FormulaGraph

variable {x : NodeId}

namespace Pass

/-- A pass beside one over a tree with a text frame of its own. The nodes that
they work on are generated and so not the text frame. -/
def beside (I : Insertion) (t₀ : Tree) : Pairing where
  tree t t' := t₀.Respects t ∧ I.Relates t t'
  node x x' := x' = I.node x ∧ t₀.Made x
  socket x x' := x' = I.socket x ∧ ¬t₀.OwnSocket x

variable {I : Insertion} {t₀ : Tree}

theorem forall₂_beside {ids ids' : List NodeId} (h : List.Forall₂ (beside I t₀).node ids ids') :
    ids' = ids.map I.node ∧ List.Forall₂ (sparing t₀).node ids ids := by
  induction h with
  | nil => exact ⟨rfl, .nil⟩
  | cons hx _ ih =>
    obtain ⟨rfl, hm⟩ := hx
    rw [List.map_cons, ← ih.1]
    exact ⟨rfl, .cons ⟨rfl, hm⟩ ih.2⟩

theorem known_beside (hg : I.frame.isGroup = false) {x' : NodeId} (h : (beside I t₀).Known x x') :
    x' = I.node x ∧ (sparing t₀).Known x x := by
  rcases h with ⟨rfl, hm⟩ | ⟨rfl, hx⟩
  · exact ⟨rfl, .inl ⟨rfl, hm⟩⟩
  · exact ⟨(Insertion.node_group hg hx).symm, .inr ⟨rfl, hx⟩⟩

theorem known_of_sparing (hg : I.frame.isGroup = false) (h : (sparing t₀).Known x x) :
    (beside I t₀).Known x (I.node x) := by
  rcases h with ⟨-, hm⟩ | ⟨-, hx⟩
  · exact .inl ⟨rfl, hm⟩
  · exact .inr ⟨Insertion.node_group hg hx, hx⟩

theorem ref_beside (hg : I.frame.isGroup = false) {r r' : SocketRef}
    (h : (beside I t₀).Ref r r') : r' = I.ref r ∧ (sparing t₀).Ref r r := by
  obtain ⟨a, b⟩ := r
  obtain ⟨a', b'⟩ := r'
  obtain ⟨hnode, hsocket⟩ := h
  obtain ⟨rfl, hsame⟩ := known_beside hg hnode
  obtain ⟨rfl, hown⟩ := hsocket
  exact ⟨rfl, hsame, rfl, hown⟩

theorem sockets_beside {l : List Socket} (h : List.Forall₂ (sparing t₀).Sockets l l) :
    List.Forall₂ (beside I t₀).Sockets l (l.map I.port) := by
  rw [List.forall₂_map_right_iff]
  exact h.imp fun s r hs => ⟨⟨congrArg I.socket hs.id.1, hs.id.2⟩, hs.type, hs.default⟩

theorem whole_touch (touch : Touch) (n : Node) :
    I.whole (touch.apply n) = touch.apply (I.whole n) := by
  have hmodify : ∀ (l : List Socket) (slot : Nat) (value : Value),
      (l.modify slot fun s => { s with default := some value }).map I.port =
        (l.map I.port).modify slot fun s => { s with default := some value } := by
    intro l slot value
    refine List.ext_getElem? fun i => ?_
    simp only [List.getElem?_map, List.getElem?_modify]
    by_cases hi : slot = i
    · cases l[i]? <;> simp [hi, Insertion.port]
    · simp [hi]
  cases touch with
  | settings entries => rfl
  | input slot value =>
    unfold Touch.apply Node.setInputDefault Insertion.whole
    dsimp only
    rw [hmodify]
  | output value position =>
    unfold Touch.apply Node.setOutputDefault Insertion.whole
    dsimp only
    rw [hmodify]
  | move position => rfl

theorem lawful_beside (hr : t₀.Regular) (hg : I.frame.isGroup = false)
    (hframe : ∀ x, t₀.Made x → I.node x ≠ I.frame) : (beside I t₀).Lawful where
  unique := by
    constructor
    · rintro a b c ⟨rfl, -⟩ ⟨hab, -⟩
      exact Insertion.node_inj.mp hab
    · rintro a b c ⟨rfl, -⟩ ⟨rfl, -⟩
      rfl
  not_group := by
    rintro x _ ⟨rfl, hm⟩
    exact ⟨hm.1, (Insertion.isGroup_node hg).trans hm.1⟩
  node? := by
    rintro t t' x x' ⟨ht, h⟩ hx
    obtain ⟨rfl, hsame⟩ := known_beside hg hx
    have hself := (lawful_sparing hr).node? ⟨rfl, ht⟩ hsame
    rcases rel_cases (h.node? x) with ⟨hn, hn'⟩ | ⟨n, n', hn, hn', htwins⟩
    · rw [hn, hn']
      exact .none
    · rw [hn] at hself
      obtain hself | - := hself
      rw [hn, hn']
      refine .some ⟨htwins.type_eq, htwins.position_eq, ?_, ?_⟩
      · rw [htwins.inputs_eq]
        exact sockets_beside hself.inputs
      · rw [htwins.outputs_eq]
        exact sockets_beside hself.outputs
  group_type := fun ⟨ht, _⟩ => (lawful_sparing hr).group_type ⟨rfl, ht⟩
  editor := fun ⟨_, h⟩ => h.editor
  tagged := by
    rintro t t' ⟨ht, h⟩
    have hself := (lawful_sparing hr).tagged ⟨rfl, ht⟩
    refine (forall₂_mem_mem h.tagged).imp fun n n' ⟨hn, _, htwins⟩ => ?_
    rw [htwins.id_eq]
    exact ⟨htwins.name_eq, known_of_sparing hg ((List.forall₂_same.mp hself) n hn).2⟩
  setActive := by
    rintro t t' x _ ⟨ht, h⟩ ⟨rfl, hm⟩
    exact ⟨((lawful_sparing hr).setActive ⟨rfl, ht⟩ ⟨rfl, hm⟩).2, h.setActive (hframe x hm)⟩
  addNode := by
    rintro t t' tag type settings ⟨ht, h⟩ htag
    have hself := (lawful_sparing hr).addNode tag type settings ⟨rfl, ht⟩ htag
    refine ⟨⟨hself.1.2, ?_⟩, ?_, hself.2.2⟩
    · rw [show setup t' tag settings = setup t tag settings by unfold setup; rw [h.nextPosition]]
      exact h.addNode type _
    · exact congrArg NodeId.mk h.supply
  removeNode := by
    rintro t t' x _ ⟨ht, h⟩ ⟨rfl, hm⟩
    exact ⟨((lawful_sparing hr).removeNode ⟨rfl, ht⟩ ⟨rfl, hm⟩).2, h.removeNode hm.1⟩
  touch := by
    rintro t t' x _ touch ⟨ht, h⟩ ⟨rfl, hm⟩
    refine ⟨((lawful_sparing hr).touch touch ⟨rfl, ht⟩ ⟨rfl, hm⟩).2, ?_⟩
    exact h.modifyNode (hframe x hm) (fun n => by cases touch <;> rfl)
      (fun n => by cases touch <;> rfl) (whole_touch touch)
  framed := by
    rintro t t' x _ members members' label ⟨ht, h⟩ ⟨rfl, hm⟩ hmembers
    obtain ⟨rfl, hall⟩ := forall₂_beside hmembers
    exact ⟨((lawful_sparing hr).framed label ⟨rfl, ht⟩ ⟨rfl, hm⟩ hall).2,
      h.framedTree ht.nested (hframe x hm) label members⟩
  besideActive := fun ⟨ht, h⟩ => ⟨((lawful_sparing hr).besideActive ⟨rfl, ht⟩).2, h.besideActive⟩
  feed := by
    rintro t t' x _ r r' ⟨ht, h⟩ ⟨rfl, hx⟩ hrr
    obtain ⟨rfl, -⟩ := ref_beside hg hrr
    rcases rel_cases (h.feedOf? x) with ⟨hl, hl'⟩ | ⟨l, l', hl, hl', hlinks⟩
    · simp [hl, hl']
    · simp [hl, hl', hlinks.source]
  disconnect := by
    rintro t t' x _ ⟨ht, h⟩ ⟨rfl, hx⟩
    exact ⟨((lawful_sparing hr).disconnect ⟨rfl, ht⟩ ⟨rfl, hx⟩).2, h.disconnect x⟩
  reconnect := by
    intro a a' b b' ha hb
    obtain ⟨rfl, -⟩ := ref_beside hg ha
    obtain ⟨rfl, hown⟩ := ref_beside hg hb
    refine .edit ?_
    rintro t t' ⟨ht, h⟩
    have hd := h.reconnect a b
    exact ⟨hd.1, ht.reconnect hr (ref_sparing hown).2, hd.2⟩
  boundarySocket := by
    rintro t t' x _ ⟨ht, h⟩ ⟨rfl, hx⟩
    rw [h.boundarySocket?]
    cases hs : t.boundarySocket? x with
    | none => exact .none
    | some s => exact .some ⟨⟨rfl, ht.boundary s (List.mem_of_find?_eq_some hs)⟩, rfl, rfl⟩
  boundaryIndex := by
    rintro t t' x _ ⟨ht, h⟩ ⟨rfl, -⟩
    exact h.boundaryIndex? x
  socketFor := by
    intro side name type
    refine .edit ?_
    rintro t t' ⟨ht, h⟩
    have hs := ht.socketFor hr side name type
    have hd := h.socketFor ht.distinct side name type
    exact ⟨hd.1.imp fun y _ hy hyy => ⟨hyy, hs.2 y (ok_of_mapError hy)⟩, hs.1, hd.2⟩
  setSocketDefault := by
    rintro x _ value ⟨rfl, hx⟩
    refine .edit ?_
    rintro t t' ⟨ht, h⟩
    have hd := h.setSocketDefault x value
    exact ⟨hd.1, ht.setSocketDefault hr x value, hd.2⟩
  keepInputs := fun names ⟨ht, h⟩ =>
    ⟨((lawful_sparing hr).keepInputs names ⟨rfl, ht⟩).2, h.keepInputs names⟩

end Pass

namespace Insertion

variable {I : Insertion} {t t' : Tree}

theorem Agrees.start (h : I.Agrees t t') (hgroup : I.frame.isGroup = false)
    (htag : ∀ n ∈ t'.nodes, n.id = I.frame → Tag.isTag n.name = false)
    (hplaced : I.frame.index < t'.supply) (hsupply : t'.supply = I.shift t.supply) :
    I.Relates (Pass.start t).tree (Pass.start t').tree := by
  have hidle : I.Relates { t with active := none } { t' with active := none } :=
    { h with
      active := rfl
      ungrouped := hgroup
      untagged := htag
      inactive := by simp
      placed := hplaced
      supply := hsupply }
  have hinput : I.node .groupInput = .groupInput := node_group hgroup rfl
  have hactive := hidle.setActive (x := .groupInput) fun heq => by
    rw [← heq, hinput] at hgroup
    cases hgroup
  rwa [hinput] at hactive

/-- Identities that are in use stay. -/
theorem agrees_of_fixed (h : t.Regular) (hfix : ∀ i, i < t.supply → I.shift i = i)
    (heditor : t'.editor = t.editor)
    (hnodes : (t'.nodes.filter I.shared).map I.veil = t.nodes.map I.veil)
    (hlinks : t'.links = t.links) (hboundary : t'.boundary = t.boundary) : I.Agrees t t' := by
  have hnode : ∀ {x : NodeId}, x.index < t.supply → I.node x = x :=
    fun hx => congrArg NodeId.mk (hfix _ hx)
  have hport : ∀ {s : Socket}, s.id.index < t.supply → I.port s = s := by
    intro s hs
    unfold port
    rw [show I.socket s.id = s.id from congrArg SocketId.mk (hfix _ hs)]
  have href : ∀ {r : SocketRef} {n : Node}, t.node? r.node = some n → r.socket ∈ n.socketIds →
      I.ref r = r := by
    intro r n hn hr
    have hx := h.sane.nodesBelow n (Tree.mem_of_node? hn)
    rw [Tree.id_of_node? hn] at hx
    unfold ref
    rw [hnode hx, show I.socket r.socket = r.socket from
      congrArg SocketId.mk (hfix _ (h.sane.socketsBelow _ n _ hn hr))]
  refine ⟨heditor, ?_, ?_, ?_⟩
  · rw [hnodes]
    refine List.map_congr_left fun n hn => congrArg I.veil ?_
    have hports : ∀ l : List Socket, (∀ s ∈ l, s.id ∈ n.socketIds) → l.map I.port = l := by
      intro l hl
      refine (List.map_congr_left fun s hs => hport ?_).trans (List.map_id _)
      exact h.sane.socketsBelow n.id n s.id (Tree.node?_of_mem h.sane.nodes hn) (hl s hs)
    have hparent : n.parent.map I.node = n.parent := by
      cases hp : n.parent with
      | none => rfl
      | some f => exact congrArg some (hnode (h.parents n hn f hp))
    unfold whole
    rw [hnode (h.sane.nodesBelow n hn), hparent,
      hports n.inputs fun s hs => List.mem_append_left _ (List.mem_map_of_mem hs),
      hports n.outputs fun s hs => List.mem_append_right _ (List.mem_map_of_mem hs)]
  · rw [hlinks]
    refine List.forall₂_same.mpr fun l hl => ?_
    obtain ⟨⟨n, hn, hs⟩, m, hm, hr⟩ := h.sane.ends l hl
    exact ⟨(href hn (List.mem_append_right _ hs)).symm, (href hm (List.mem_append_left _ hr)).symm⟩
  · rw [hboundary]
    exact ((List.map_congr_left fun s hs => hport (h.below s hs)).trans (List.map_id _)).symm

end Insertion

namespace Tree

variable {t : Tree}

def insertion (t : Tree) : Insertion := ⟨t.textFrameId, (t.nodeNamed? textFrameName).isNone⟩

theorem insertion_of_found {n : Node} (h : t.nodeNamed? textFrameName = some n) :
    t.insertion = ⟨n.id, false⟩ := by
  rw [insertion, textFrameId_of_found h, h]
  rfl

theorem insertion_of_missing (h : t.nodeNamed? textFrameName = none) :
    t.insertion = ⟨⟨t.supply⟩, true⟩ := by
  rw [insertion, textFrameId_of_missing h, h]
  rfl

theorem agrees_writeText (h : t.Regular) (text : String) :
    t.insertion.Agrees t (t.writeText text) := by
  cases hfound : t.nodeNamed? textFrameName with
  | some n =>
    rw [insertion_of_found hfound, writeText_of_found hfound]
    refine Insertion.agrees_of_fixed h (fun i _ => rfl) rfl ?_ rfl rfl
    rw [show Insertion.shared ⟨n.id, false⟩ = fun _ => true from rfl, List.filter_true]
    show (t.nodes.map _).map _ = t.nodes.map _
    rw [List.map_map]
    refine List.map_congr_left fun m _ => ?_
    by_cases hm : m.id = n.id
    · simp [Insertion.veil, Insertion.bald, holding, hm]
    · simp [hm]
  | none =>
    have hshared : t.nodes.filter (Insertion.shared ⟨⟨t.supply⟩, true⟩) = t.nodes := by
      refine List.filter_eq_self.mpr fun n hn => ?_
      have := h.sane.nodesBelow n hn
      rw [Insertion.shared, Bool.true_and, Bool.not_eq_true', beq_eq_false_iff_ne]
      rintro heq
      rw [heq] at this
      exact Nat.lt_irrefl _ this
    rw [insertion_of_missing hfound, writeText_eq hfound h.sane.nodesBelow]
    refine Insertion.agrees_of_fixed h (fun i hi => Insertion.shift_of_lt fun _ => hi) rfl ?_ rfl
      rfl
    dsimp only
    rw [List.filter_append, hshared, List.filter_singleton]
    simp [Insertion.shared, id_textFrame]

theorem supply_writeText (h : t.Regular) (text : String) :
    (t.writeText text).supply = t.insertion.shift t.supply := by
  cases hfound : t.nodeNamed? textFrameName with
  | some n =>
    rw [insertion_of_found hfound, writeText_of_found hfound]
    rfl
  | none =>
    rw [insertion_of_missing hfound, writeText_eq hfound h.sane.nodesBelow, Insertion.shift,
      if_pos rfl, if_pos (Nat.le_refl _)]

section Beside

variable (h : t.Regular)
  (hframe : ∀ n, t.nodeNamed? textFrameName = some n → n.id.isGroup = false)
include h hframe

theorem relates_writeText (text : String) :
    t.insertion.Relates (Pass.start t).tree (Pass.start (t.writeText text)).tree := by
  obtain ⟨n, hn, hid, -⟩ := exists_textFrame h.sane text
  refine (agrees_writeText h text).start (h.not_isGroup_textFrameId hframe) ?_ ?_
    (supply_writeText h text)
  · intro m hm hid
    rw [h.name_of_textFrameId hm hid, not_isTag_textFrameName]
  · show t.textFrameId.index < (t.writeText text).supply
    rw [← hid]
    exact (h.writeText text).sane.nodesBelow n hn

theorem node_ne_frame_of_made (hm : t.Made x) : t.insertion.node x ≠ t.insertion.frame := by
  cases hfound : t.nodeNamed? textFrameName with
  | none =>
    rw [insertion_of_missing hfound]
    exact Insertion.node_ne_frame rfl
  | some n =>
    rw [insertion_of_found hfound]
    intro hx
    have hown := h.not_own_of_made hm (mem_of_nodeNamed? hfound) hx.symm
    rw [Node.isOwn, name_of_nodeNamed? hfound, not_isTag_textFrameName, hframe n hfound] at hown
    cases hown

theorem realize_beside (text : String) (unknowns : List String) (term : Term) (options : Options) :
    Outcomes Eq (realize unknowns term options t).1
        (realize unknowns term options (t.writeText text)).1 ∧
      t.insertion.Agrees (realize unknowns term options t).2
        (realize unknowns term options (t.writeText text)).2 := by
  rw [realize_run, realize_run, editor_writeText]
  cases term.unavailable? t.editor with
  | some f => exact ⟨.error (.refl _), agrees_writeText h text⟩
  | none =>
    have hlawful := Pass.lawful_beside h (h.not_isGroup_textFrameId hframe)
      fun _ => node_ne_frame_of_made h hframe
    have hpaired := hlawful.synthesis unknowns term options _ _
      (hlawful.start ⟨h.respects.setActive h _, relates_writeText h hframe text⟩)
    exact ⟨hpaired.1, hpaired.2.tree.2.toAgrees⟩

theorem compile_beside (note text : String) (options : Options) :
    Outcomes Eq (compile text options t).1 (compile text options (t.writeText note)).1 ∧
      t.insertion.Agrees (compile text options t).2
        (compile text options (t.writeText note)).2 := by
  rw [compile_run, compile_run]
  cases Typed.read text options with
  | error fault => exact ⟨.error (.refl _), agrees_writeText h note⟩
  | ok read => exact realize_beside h hframe note _ _ _

/-- The note outlives the pass. -/
theorem note_compile (note text : String) (options : Options) :
    ∃ n ∈ (compile text options (t.writeText note)).2.nodes,
      n.id = t.textFrameId ∧ n.name = textFrameName ∧ n.label = note := by
  obtain ⟨n, hn, hid, hname, hlabel⟩ := exists_textFrame h.sane note
  have hown : n.isOwn = true := by
    rw [Node.isOwn, hname, hid, not_isTag_textFrameName, h.not_isGroup_textFrameId hframe]
    rfl
  have hkeeps := Respects.compile (h.writeText note) text options
  obtain ⟨n', hn', hstays⟩ := forall₂_mem_left hkeeps.own (List.mem_filter.mpr ⟨hn, hown⟩)
  have hkept : ∀ {α : Type} (k : Node → α), k n'.orphan = k n.orphan :=
    fun k => congrArg k hstays.orphan
  exact ⟨n', (List.mem_filter.mp hn').1, (hkept Node.id).trans hid, (hkept Node.name).trans hname,
    (hkept Node.label).trans hlabel⟩

end Beside

end Tree

end FormulaGraph
