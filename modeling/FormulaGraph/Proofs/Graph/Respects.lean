import FormulaGraph.Proofs.Graph.Enclosure
import FormulaGraph.Proofs.Pass.Actions

/-!
Edits that spare the nodes of the host: those that are neither group nodes nor
generated. Such a node keeps all but its parent, and the links between two of
them stay. Every edit that a pass makes is of this sort.
-/

namespace FormulaGraph

open Run Relation

theorem forall₂_mem_mem {α β : Type} {R : α → β → Prop} {l : List α} {l' : List β}
    (h : List.Forall₂ R l l') : List.Forall₂ (fun a b => a ∈ l ∧ b ∈ l' ∧ R a b) l l' := by
  induction h with
  | nil => exact .nil
  | cons hr _ ih =>
    refine .cons ⟨List.mem_cons_self, List.mem_cons_self, hr⟩ (ih.imp fun _ _ ⟨ha, hb, hr⟩ => ?_)
    exact ⟨List.mem_cons_of_mem _ ha, List.mem_cons_of_mem _ hb, hr⟩

def Node.isOwn (n : Node) : Bool := !n.id.isGroup && !Tag.isTag n.name

namespace Tree

variable {n : Node}

/-- A tree whose parts have identities of their own, all of them from the
supply, of which the first two are those of the group nodes. Frames are nested.
Passes do not make nodes of the types of group nodes, and no other node shows
the boundary. -/
structure Regular (t : Tree) : Prop where
  sane : t.Sane
  nested : t.Nested
  supply : 2 ≤ t.supply
  groups : ∀ n ∈ t.nodes, n.id.isGroup = true → n.type.isBuilt = false
  parents : ∀ n ∈ t.nodes, ∀ f, n.parent = some f → f.index < t.supply
  distinct : (t.boundary.map (·.id)).Nodup
  below : ∀ s ∈ t.boundary, s.id.index < t.supply
  apart : ∀ s ∈ t.boundary, ∀ id n, t.node? id = some n → s.id ∈ n.socketIds → id.isGroup = true

def Encloses (t : Tree) (frame : NodeId) : Prop :=
  ∃ x n, t.node? x = some n ∧ Tag.isTag n.name = true ∧ TransGen t.InFrame x frame

/-- A node was generated in the tree or made since. -/
def Made (t : Tree) (x : NodeId) : Prop :=
  x.isGroup = false ∧ ((∃ n, t.node? x = some n ∧ Tag.isTag n.name = true) ∨ t.supply ≤ x.index)

def OwnSocket (t : Tree) (x : SocketId) : Prop := ∃ n ∈ t.nodes, n.isOwn = true ∧ x ∈ n.socketIds

def OwnEnd (t : Tree) (r : SocketRef) : Prop :=
  ∃ n ∈ t.nodes, n.isOwn = true ∧ n.id = r.node ∧ r.socket ∈ n.socketIds

/-- A node of the tree was in no frame, or in one that is gone by now. -/
def Released (t t' : Tree) (n : Node) : Prop :=
  n.parent = none ∨ ∃ f, n.parent = some f ∧ t.contains f = true ∧ t'.contains f = false

structure Stays (t t' : Tree) (n n' : Node) : Prop where
  orphan : n'.orphan = n.orphan
  parent : n'.parent = n.parent ∨ t.Released t' n ∧
    (n'.parent = none ∨ t.Encloses n.id ∧ ∃ f, n'.parent = some f ∧ t.Made f)

/-- What a pass over a tree has kept at any time. -/
structure Respects (t t' : Tree) : Prop where
  editor : t'.editor = t.editor
  supply : t.supply ≤ t'.supply
  ids : (t'.nodes.map (·.id)).Nodup
  idsBelow : ∀ n ∈ t'.nodes, n.id.index < t'.supply
  nested : t'.Nested
  own : List.Forall₂ (Stays t t') (t.nodes.filter Node.isOwn) (t'.nodes.filter Node.isOwn)
  groupNames : (t'.nodes.filter (·.id.isGroup)).map (·.name) =
    (t.nodes.filter (·.id.isGroup)).map (·.name)
  groupTypes : ∀ n ∈ t'.nodes, n.id.isGroup = true → n.type.isBuilt = false
  made : ∀ n ∈ t'.nodes, Tag.isTag n.name = true → n.id.isGroup = true ∨ t.Made n.id
  sockets : ∀ n ∈ t'.nodes, n.isOwn = false → ∀ x ∈ n.socketIds, ¬t.OwnSocket x
  distinct : (t'.boundary.map (·.id)).Nodup
  below : ∀ s ∈ t'.boundary, s.id.index < t'.supply
  boundary : ∀ s ∈ t'.boundary, ¬t.OwnSocket s.id
  between : ∀ l, t.OwnEnd l.source → t.OwnEnd l.target → (l ∈ t'.links ↔ l ∈ t.links)
  enclosed : ∀ y, t'.Encloses y → ∀ n ∈ t.nodes, n.id = y → n.isOwn = true → t.Encloses y

structure Besides (t t' t'' : Tree) : Prop where
  editor : t''.editor = t'.editor
  supply : t'.supply ≤ t''.supply
  distinct : (t''.boundary.map (·.id)).Nodup
  boundary : ∀ s ∈ t''.boundary, s.id.index < t''.supply ∧ ¬t.OwnSocket s.id
  links : ∀ l, t.OwnEnd l.source → t.OwnEnd l.target → (l ∈ t''.links ↔ l ∈ t'.links)

variable {t t' t'' : Tree} {x y : NodeId}

theorem OwnEnd.socket {r : SocketRef} (h : t.OwnEnd r) : t.OwnSocket r.socket := by
  obtain ⟨n, hn, ho, -, hx⟩ := h
  exact ⟨n, hn, ho, hx⟩

theorem not_touches_of_ownEnds {y : SocketId} (hy : ¬t.OwnSocket y) {l : Link}
    (hs : t.OwnEnd l.source) (ht : t.OwnEnd l.target) : l.touchesSocket y = false := by
  have hsource : l.source.socket ≠ y := fun heq => hy (heq ▸ hs.socket)
  have htarget : l.target.socket ≠ y := fun heq => hy (heq ▸ ht.socket)
  simp [Link.touchesSocket, hsource, htarget]

theorem Encloses.of_nodes (h : t''.Encloses y)
    (hn : ∀ x n f, t''.node? x = some n → n.parent = some f →
      ∃ m, t'.node? x = some m ∧ m.parent = some f ∧ m.name = n.name) : t'.Encloses y := by
  obtain ⟨x, n, hx, htag, hreach⟩ := h
  have step : ∀ a b, t''.InFrame a b → t'.InFrame a b := by
    intro a b hab
    obtain ⟨k, hk, hp⟩ := inFrame_iff.mp hab
    obtain ⟨m, hm, hp', -⟩ := hn a k b hk hp
    exact inFrame_iff.mpr ⟨m, hm, hp'⟩
  obtain ⟨b, hfirst, -⟩ := TransGen.head'_iff.mp hreach
  obtain ⟨k, hk, hp⟩ := inFrame_iff.mp hfirst
  rw [hx] at hk
  cases hk
  obtain ⟨m, hm, -, hname⟩ := hn x n b hx hp
  exact ⟨x, m, hm, hname ▸ htag, TransGen.mono step _ _ hreach⟩

theorem Nested.of_nodes (h : t'.Nested) (hn : ∀ x n f, t''.node? x = some n → n.parent = some f →
    ∃ m, t'.node? x = some m ∧ m.parent = some f ∧ m.name = n.name) : t''.Nested := by
  refine h.mono fun a b hab => ?_
  obtain ⟨n, hn', hp⟩ := inFrame_iff.mp hab
  obtain ⟨m, hm, hp', -⟩ := hn a n b hn' hp
  exact inFrame_iff.mpr ⟨m, hm, hp'⟩

namespace Regular

variable (h : t.Regular)
include h

theorem made_supply (hs : t.supply ≤ t'.supply) : t.Made ⟨t'.supply⟩ := by
  exact ⟨NodeId.not_isGroup_of_le (Nat.le_trans h.supply hs), .inr hs⟩

theorem not_own_of_made (hm : t.Made x) (hn : n ∈ t.nodes) (hid : n.id = x) : n.isOwn = false := by
  rcases hm.2 with ⟨m, hx, htag⟩ | hsupply
  · have := node?_of_mem h.sane.nodes hn
    rw [hid, hx] at this
    cases this
    simp [Node.isOwn, htag]
  · have := h.sane.nodesBelow n hn
    rw [hid] at this
    omega

theorem ne_of_ownEnd (hm : t.Made x) {r : SocketRef} (ho : t.OwnEnd r) : r.node ≠ x := by
  obtain ⟨n, hn, hown, hid, -⟩ := ho
  intro hx
  rw [h.not_own_of_made hm hn (hid.trans hx)] at hown
  cases hown

theorem not_ownSocket_of_supply {s : SocketId} (hs : t.supply ≤ s.index) : ¬t.OwnSocket s := by
  rintro ⟨n, hn, -, hx⟩
  have := h.sane.socketsBelow n.id n s (node?_of_mem h.sane.nodes hn) hx
  omega

theorem respects : Respects t t where
  editor := rfl
  supply := Nat.le_refl _
  ids := h.sane.nodes
  idsBelow := h.sane.nodesBelow
  nested := h.nested
  own := List.forall₂_same.mpr fun n _ => ⟨rfl, .inl rfl⟩
  groupNames := rfl
  groupTypes := h.groups
  made := by
    intro n hn htag
    cases hg : n.id.isGroup with
    | true => exact .inl rfl
    | false => exact .inr ⟨hg, .inl ⟨n, node?_of_mem h.sane.nodes hn, htag⟩⟩
  sockets := by
    rintro n hn hown x hx ⟨m, hm, hown', hx'⟩
    have := h.sane.owner _ _ n m x (node?_of_mem h.sane.nodes hn) (node?_of_mem h.sane.nodes hm)
      hx hx'
    rw [List.inj_on_of_nodup_map h.sane.nodes hn hm this, hown'] at hown
    cases hown
  distinct := h.distinct
  below := h.below
  boundary := by
    rintro s hs ⟨n, hn, hown, hx⟩
    have := h.apart s hs n.id n (node?_of_mem h.sane.nodes hn) hx
    simp [Node.isOwn, this] at hown
  between := fun _ _ _ => .rfl
  enclosed := fun _ hy _ _ _ _ => hy

end Regular

theorem nodes_syncGroups : t.syncGroups.nodes = t.nodes.map t.mirrored := by
  unfold syncGroups modifyNode
  dsimp only
  rw [List.map_map]
  refine List.map_congr_left fun n _ => ?_
  by_cases hi : n.id = .groupInput
  · simp [mirrored, hi, groupOutput_ne_groupInput.symm]
  · by_cases ho : n.id = .groupOutput
    · simp [mirrored, ho, groupOutput_ne_groupInput]
    · simp [mirrored, hi, ho]

section Stays

variable {n n' : Node}

theorem Released.mono (h : t.Released t' n)
    (hgone : ∀ f, t.contains f = true → t'.contains f = false → t''.contains f = false) :
    t.Released t'' n :=
  h.imp_right fun ⟨f, hf, hc, hc'⟩ => ⟨f, hf, hc, hgone f hc hc'⟩

theorem Stays.mono (h : Stays t t' n n')
    (hgone : ∀ f, t.contains f = true → t'.contains f = false → t''.contains f = false) :
    Stays t t'' n n' :=
  ⟨h.orphan, h.parent.imp_right (And.imp_left fun hr => hr.mono hgone)⟩

/-- A node of the host leaves a frame that is removed. -/
theorem Stays.leave (h : Stays t t' n n') (hr : t.Regular) (hx : t.Made x) (hn : n ∈ t.nodes)
    (hgone : ∀ f, t'.contains f = false ∨ f = x → t''.contains f = false) :
    Stays t t'' n { n' with parent := n'.parent.filter (· != x) } := by
  refine ⟨h.orphan, ?_⟩
  dsimp only
  rcases h.parent with hp | ⟨hreleased, hp⟩
  · rw [hp]
    cases hn' : n.parent with
    | none => exact .inl rfl
    | some f =>
      by_cases hfx : f = x
      · subst hfx
        refine .inr ⟨.inr ⟨f, hn', ?_, hgone f (.inr rfl)⟩, .inl (by simp [Option.filter])⟩
        rcases hx.2 with ⟨m, hm, -⟩ | hnew
        · exact contains_iff.mpr ⟨m, hm⟩
        · have := hr.parents n hn f hn'
          omega
      · exact .inl (by simp [hfx, Option.filter])
  · refine .inr ⟨hreleased.mono fun f _ hc => hgone f (.inl hc), ?_⟩
    rcases hp with hp | ⟨he, f, hp, hm⟩
    · exact .inl (by rw [hp]; rfl)
    · by_cases hfx : f = x
      · exact .inl (by simp [hp, hfx, Option.filter])
      · exact .inr ⟨he, f, by simp [hp, hfx, Option.filter], hm⟩

end Stays

namespace Respects

variable (h : Respects t t')
include h

theorem links (l : Link) (hl : l ∈ t.links) (hs : t.OwnEnd l.source) (ht : t.OwnEnd l.target) :
    l ∈ t'.links :=
  (h.between l hs ht).mpr hl

theorem besides (heditor : t''.editor = t'.editor) (hsupply : t'.supply ≤ t''.supply)
    (hboundary : t''.boundary = t'.boundary)
    (hlinks : ∀ l, t.OwnEnd l.source → t.OwnEnd l.target → (l ∈ t''.links ↔ l ∈ t'.links)) :
    Besides t t' t'' := by
  refine ⟨heditor, hsupply, hboundary ▸ h.distinct, fun s hs => ?_, hlinks⟩
  rw [hboundary] at hs
  exact ⟨Nat.lt_of_lt_of_le (h.below s hs) hsupply, h.boundary s hs⟩

variable (hr : t.Regular)
include hr

theorem not_own (hm : t.Made x) (hn : n ∈ t'.nodes) (hid : n.id = x) : n.isOwn = false := by
  refine Bool.eq_false_iff.mpr fun hown => ?_
  obtain ⟨m, hmem, hstays⟩ := forall₂_mem_right h.own (List.mem_filter.mpr ⟨hn, hown⟩)
  obtain ⟨hmem, hown'⟩ := List.mem_filter.mp hmem
  have hid' : m.id = x := (show n.orphan.id = m.orphan.id by rw [hstays.orphan]).symm.trans hid
  rw [hr.not_own_of_made hm hmem hid'] at hown'
  cases hown'

theorem tagged (hm : t.Made x) (hn : t'.node? x = some n) : Tag.isTag n.name = true := by
  have := h.not_own hr hm (mem_of_node? hn) (id_of_node? hn)
  simpa [Node.isOwn, id_of_node? hn, hm.1] using this

/-- An edit that drops nodes, changes others and adds some at the end. Those of
the host may only change their parents. -/
theorem rework (kept : NodeId → Bool) (g : Node → Node) (added : List Node)
    (hnodes : t''.nodes = (t'.nodes.filter (kept ·.id)).map g ++ added)
    (hgone : ∀ id, kept id = false → t.Made id)
    (hsame : ∀ n, (g n).id = n.id ∧ (g n).name = n.name ∧ (g n).type = n.type)
    (hstays : ∀ n ∈ t.nodes, ∀ n' ∈ t'.nodes, n.isOwn = true → n'.isOwn = true → Stays t t' n n' →
      Stays t t'' n (g n'))
    (hsockets : ∀ n ∈ t'.nodes, n.isOwn = false → ∀ x ∈ (g n).socketIds, ¬t.OwnSocket x)
    (hadded : ∀ n ∈ added, Tag.isTag n.name = true ∧ t.Made n.id ∧
      t'.supply ≤ n.id.index ∧ n.id.index < t''.supply ∧ ∀ x ∈ n.socketIds, ¬t.OwnSocket x)
    (hfresh : (added.map (·.id)).Nodup) (hbesides : Besides t t' t'') (hnested : t''.Nested)
    (henclosed : ∀ y, t''.Encloses y → ∀ n ∈ t.nodes, n.id = y → n.isOwn = true → t.Encloses y) :
    Respects t t'' := by
  have hmem : ∀ {n}, n ∈ t''.nodes → (∃ m ∈ t'.nodes, n = g m) ∨ n ∈ added := by
    intro n hn
    rw [hnodes] at hn
    refine (List.mem_append.mp hn).imp_left fun hn => ?_
    obtain ⟨m, hm, rfl⟩ := List.mem_map.mp hn
    exact ⟨m, (List.mem_filter.mp hm).1, rfl⟩
  have hisOwn : ∀ n, (g n).isOwn = n.isOwn := fun n => by
    rw [Node.isOwn, (hsame n).1, (hsame n).2.1, Node.isOwn]
  -- what a pass has made is on neither of the lists that are kept
  have hfilter : ∀ q : Node → Bool, (∀ n, q (g n) = q n) → (∀ n ∈ added, q n = false) →
      (∀ n ∈ t'.nodes, t.Made n.id → q n = false) →
      t''.nodes.filter q = (t'.nodes.filter q).map g := by
    intro q hq hnew hout
    have hnone : added.filter q = [] := List.filter_eq_nil_iff.mpr fun n hn => by simp [hnew n hn]
    rw [hnodes, List.filter_append, hnone, List.append_nil, List.filter_map, List.filter_filter]
    congr 1
    refine List.filter_congr fun n hn => ?_
    rw [Function.comp, hq]
    cases hk : kept n.id with
    | true => simp
    | false => simp [hout n hn (hgone n.id hk)]
  constructor
  case editor => exact hbesides.editor.trans h.editor
  case supply => exact Nat.le_trans h.supply hbesides.supply
  case ids =>
    have hids : (fun n : Node => n.id) ∘ g = (·.id) := funext fun n => (hsame n).1
    rw [hnodes, List.map_append, List.nodup_append, List.map_map, hids]
    refine ⟨h.ids.sublist (List.filter_sublist.map _), hfresh, ?_⟩
    rintro _ ha _ hb rfl
    obtain ⟨n, hn, hid⟩ := List.mem_map.mp ha
    obtain ⟨m, hm, rfl⟩ := List.mem_map.mp hb
    have hlt := hid ▸ h.idsBelow n (List.mem_filter.mp hn).1
    exact Nat.not_le.mpr hlt (hadded m hm).2.2.1
  case idsBelow =>
    intro n hn
    rcases hmem hn with ⟨m, hm, rfl⟩ | hn
    · rw [(hsame m).1]
      exact Nat.lt_of_lt_of_le (h.idsBelow m hm) hbesides.supply
    · exact (hadded n hn).2.2.2.1
  case nested => exact hnested
  case own =>
    rw [hfilter _ hisOwn (fun n hn => by simp [Node.isOwn, (hadded n hn).1])
      fun n hn hm => h.not_own hr hm hn rfl, List.forall₂_map_right_iff]
    refine (forall₂_mem_mem h.own).imp fun n n' ⟨hn, hn', hs⟩ => ?_
    obtain ⟨hn, hown⟩ := List.mem_filter.mp hn
    obtain ⟨hn', hown'⟩ := List.mem_filter.mp hn'
    exact hstays n hn n' hn' hown hown' hs
  case groupNames =>
    rw [hfilter (fun n => n.id.isGroup) (fun n => by rw [(hsame n).1])
      (fun n hn => (hadded n hn).2.1.1) fun n _ hm => hm.1, List.map_map, ← h.groupNames]
    exact List.map_congr_left fun n _ => (hsame n).2.1
  case groupTypes =>
    intro n hn hg
    rcases hmem hn with ⟨m, hm, rfl⟩ | hn
    · rw [(hsame m).2.2]
      exact h.groupTypes m hm ((hsame m).1 ▸ hg)
    · rw [(hadded n hn).2.1.1] at hg
      cases hg
  case made =>
    intro n hn htag
    rcases hmem hn with ⟨m, hm, rfl⟩ | hn
    · rw [(hsame m).1]
      exact h.made m hm ((hsame m).2.1 ▸ htag)
    · exact .inr (hadded n hn).2.1
  case sockets =>
    intro n hn ho
    rcases hmem hn with ⟨m, hm, rfl⟩ | hn
    · exact hsockets m hm (hisOwn m ▸ ho)
    · exact (hadded n hn).2.2.2.2
  case distinct => exact hbesides.distinct
  case below => exact fun s hs => (hbesides.boundary s hs).1
  case boundary => exact fun s hs => (hbesides.boundary s hs).2
  case between => exact fun l hs ht => (hbesides.links l hs ht).trans (h.between l hs ht)
  case enclosed => exact henclosed

/-- An edit of nodes that are not the host's, and of all else. -/
theorem renew {g : Node → Node} (hnodes : t''.nodes = t'.nodes.map g)
    (hown : ∀ n ∈ t'.nodes, n.isOwn = true → g n = n)
    (hsame : ∀ n, (g n).id = n.id ∧ (g n).name = n.name ∧ (g n).type = n.type)
    (hparent : ∀ n, (g n).parent = n.parent)
    (hsockets : ∀ n ∈ t'.nodes, n.isOwn = false → ∀ x ∈ (g n).socketIds, ¬t.OwnSocket x)
    (hbesides : Besides t t' t'') : Respects t t'' := by
  have hnode : ∀ x, t''.node? x = (t'.node? x).map g := by
    intro x
    unfold node?
    rw [hnodes, find?_map_of_congr fun n => by rw [(hsame n).1]]
  have hold : ∀ x n f, t''.node? x = some n → n.parent = some f →
      ∃ m, t'.node? x = some m ∧ m.parent = some f ∧ m.name = n.name := by
    intro x n f hn hp
    rw [hnode] at hn
    obtain ⟨m, hm, rfl⟩ := Option.map_eq_some_iff.mp hn
    exact ⟨m, hm, hparent m ▸ hp, (hsame m).2.1.symm⟩
  refine h.rework hr (fun _ => true) g [] (by rw [List.filter_true, List.append_nil, hnodes]) nofun
    hsame ?_ hsockets nofun List.nodup_nil hbesides (h.nested.of_nodes hold)
    fun y hy => h.enclosed y (hy.of_nodes hold)
  intro n _ n' hn' _ hown' hs
  rw [hown n' hn' hown']
  refine hs.mono fun f _ hc => ?_
  rw [← hc, Bool.eq_iff_iff, contains_iff, contains_iff, hnode]
  simp

theorem relink (hnodes : t''.nodes = t'.nodes) (hbesides : Besides t t' t'') : Respects t t'' :=
  h.renew hr (g := id) (by rw [hnodes, List.map_id]) (fun _ _ _ => rfl)
    (fun _ => ⟨rfl, rfl, rfl⟩) (fun _ => rfl) h.sockets hbesides

theorem setActive (x : Option NodeId) : Respects t (t'.setActive x) :=
  h.relink hr rfl (h.besides rfl (Nat.le_refl _) rfl fun _ _ _ => .rfl)

/-- A change of one node that is not the host's. -/
theorem modifyNode {f : Node → Node}
    (hsame : ∀ n, (f n).id = n.id ∧ (f n).name = n.name ∧ (f n).type = n.type)
    (hparent : ∀ n, (f n).parent = n.parent) (hsockets : ∀ n, (f n).socketIds = n.socketIds)
    (hx : ∀ n ∈ t'.nodes, n.id = x → n.isOwn = false) : Respects t (t'.modifyNode x f) := by
  have pick : ∀ {α : Type} (k : Node → α), (∀ n, k (f n) = k n) →
      ∀ n : Node, k (if n.id == x then f n else n) = k n := by
    intro α k hk n
    split
    · exact hk n
    · rfl
  refine h.renew hr (g := fun n => if n.id == x then f n else n) rfl ?_
    (fun n => ⟨pick _ (hsame · |>.1) n, pick _ (hsame · |>.2.1) n, pick _ (hsame · |>.2.2) n⟩)
    (pick _ hparent) ?_ (h.besides rfl (Nat.le_refl _) rfl fun _ _ _ => .rfl)
  · intro n hn ho
    have hne : ¬n.id = x := fun hid => by rw [hx n hn hid] at ho; cases ho
    simp [hne]
  · intro n hn ho y hy
    rw [pick _ hsockets] at hy
    exact h.sockets n hn ho y hy

theorem addNode (type : NodeType) {setup : NodeSetup} {tag : String}
    (hname : setup.name = some tag) (htag : Tag.isTag tag = true) :
    Respects t (t'.addNode type setup).1 := by
  have hid := t'.id_addedNode type setup
  have hnewName : (t'.addedNode type setup).name = tag := by
    unfold addedNode
    rw [hname]
    rfl
  have hnested := h.nested.addNode h.idsBelow type setup
  have henclosed : ∀ y, (t'.addNode type setup).1.Encloses y → t'.Encloses y := fun y hy =>
    hy.of_nodes fun x n f hn hp => ⟨n, node?_of_addNode h.idsBelow hn hp, hp, rfl⟩
  rw [addNode_eq] at hnested henclosed ⊢
  refine h.rework hr (fun _ => true) id [t'.addedNode type setup]
    (by rw [List.filter_true, List.map_id]) nofun (fun _ => ⟨rfl, rfl, rfl⟩) ?_ h.sockets ?_
    (List.nodup_singleton _) (h.besides rfl (Nat.le_add_right _ _) rfl fun _ _ _ => .rfl) hnested
    fun y hy => h.enclosed y (henclosed y hy)
  · intro n _ n' _ _ _ hs
    refine hs.mono fun f hc hc' => ?_
    -- a frame of the tree at the start is not the node that is new now
    obtain ⟨m, hm⟩ := contains_iff.mp hc
    have hbelow := hr.sane.nodesBelow m (mem_of_node? hm)
    rw [id_of_node? hm] at hbelow
    have hne : ¬(⟨t'.supply⟩ : NodeId) = f := by
      rintro rfl
      exact absurd h.supply (Nat.not_le.mpr hbelow)
    unfold contains at hc' ⊢
    rw [List.any_append, hc']
    simp [hid, hne]
  · intro n hn
    rw [List.mem_singleton.mp hn, hid, hnewName]
    refine ⟨htag, hr.made_supply h.supply, Nat.le_refl _, ?_, fun y hy => ?_⟩
    · refine Nat.lt_add_of_pos_right ?_
      unfold NodeType.idCount
      omega
    · rw [socketIds_addedNode] at hy
      obtain ⟨i, hi, rfl⟩ := List.mem_map.mp hy
      refine hr.not_ownSocket_of_supply ?_
      have := h.supply
      have := (List.mem_range'_1.mp hi).1
      dsimp only
      omega

theorem removeNode (hx : t.Made x) : Respects t (t'.removeNode x) := by
  have hgone : ∀ f, t'.contains f = false ∨ f = x → (t'.removeNode x).contains f = false := by
    intro f hf
    refine Bool.eq_false_iff.mpr fun hc => ?_
    obtain ⟨n, hn⟩ := contains_iff.mp hc
    rw [node?_removeNode hx.1] at hn
    split at hn
    · cases hn
    · next hne =>
      obtain ⟨m, hm, -⟩ := Option.map_eq_some_iff.mp hn
      rw [contains_iff.mpr ⟨m, hm⟩] at hf
      exact hf.elim nofun hne
  have hold : ∀ a n f, (t'.removeNode x).node? a = some n → n.parent = some f →
      ∃ m, t'.node? a = some m ∧ m.parent = some f ∧ m.name = n.name := by
    intro a n f hn hp
    rw [node?_removeNode hx.1] at hn
    split at hn
    · cases hn
    · obtain ⟨m, hm, rfl⟩ := Option.map_eq_some_iff.mp hn
      refine ⟨m, hm, ?_⟩
      unfold leaving at hp ⊢
      split at hp
      · cases hp
      · next hne => exact ⟨hp, by rw [if_neg hne]⟩
  have hnested := h.nested.of_nodes hold
  have henclosed := fun y hy => h.enclosed y (Encloses.of_nodes hy hold)
  rw [removeNode_eq hx.1] at hgone hnested henclosed ⊢
  refine h.rework hr (· != x) (fun n => { n with parent := n.parent.filter (· != x) }) []
    (List.append_nil _).symm ?_ (fun _ => ⟨rfl, rfl, rfl⟩)
    (fun n hn n' _ _ _ hs => hs.leave hr hx hn hgone) h.sockets nofun List.nodup_nil
    (h.besides rfl (Nat.le_refl _) rfl ?_) hnested henclosed
  · intro id hid
    have : id = x := by simpa using hid
    exact this ▸ hx
  · intro l hsource htarget
    refine List.mem_filter.trans (and_iff_left ?_)
    simp [Link.touchesNode, hr.ne_of_ownEnd hx hsource, hr.ne_of_ownEnd hx htarget]

/-- Putting a node into a frame. If it is one of the host's, it is around
generated nodes and in no other frame. -/
theorem setParent {frame : NodeId} (hframe : t.Made frame)
    (hout : ¬ReflTransGen t'.InFrame frame x)
    (hfree : t'.parent? x = none ∨ t'.parent? x = some frame)
    (hroot : ∀ n ∈ t.nodes, n.id = x → n.isOwn = true → t.Encloses x) :
    Respects t (t'.setParent frame x) := by
  have hcontains : ∀ f, (t'.setParent frame x).contains f = t'.contains f := by
    intro f
    rw [Bool.eq_iff_iff, contains_iff, contains_iff, node?_setParent]
    simp
  refine h.rework hr (fun _ => true)
    (fun n => { n with parent := if n.id = x then some frame else n.parent }) [] ?_ nofun
    (fun _ => ⟨rfl, rfl, rfl⟩) ?_ h.sockets nofun List.nodup_nil
    (h.besides rfl (Nat.le_refl _) rfl fun _ _ _ => .rfl) (h.nested.setParent hout) ?_
  · rw [List.filter_true, List.append_nil]
    refine List.map_congr_left fun n _ => ?_
    by_cases hid : n.id = x <;> simp [hid]
  · intro n hn n' hn' hown _ hs
    have hid' : n'.id = n.id := show n'.orphan.id = n.orphan.id by rw [hs.orphan]
    refine ⟨hs.orphan, ?_⟩
    dsimp only
    by_cases hid : n.id = x
    · have hparent : t'.parent? x = n'.parent := by
        rw [parent?, ← hid, ← hid', node?_of_mem h.ids hn']
        rfl
      rw [hparent] at hfree
      rw [if_pos (hid'.trans hid)]
      simp only [Released, hcontains]
      rcases hfree with hfree | hfree
      · refine .inr ⟨?_, .inr ⟨hid ▸ hroot n hn hid hown, frame, rfl, hframe⟩⟩
        rcases hs.parent with hp | ⟨hreleased, -⟩
        · exact .inl (hp ▸ hfree)
        · exact hreleased
      · exact hfree ▸ hs.parent
    · rw [if_neg (by rwa [hid'])]
      simp only [Released, hcontains]
      exact hs.parent
  · intro y hy n hn hid hown
    obtain ⟨a, m, ha, htag, hreach⟩ := hy
    rcases reaches_of_setParent hreach with hreach | hreach
    · rw [node?_setParent] at ha
      obtain ⟨k, hk, rfl⟩ := Option.map_eq_some_iff.mp ha
      refine h.enclosed y ⟨a, k, hk, ?_, hreach⟩ n hn hid hown
      split at htag <;> exact htag
    · rcases reflTransGen_iff_eq_or_transGen.mp hreach with rfl | hreach
      · rw [hr.not_own_of_made hframe hn hid] at hown
        cases hown
      · obtain ⟨b, hfirst, -⟩ := TransGen.head'_iff.mp hreach
        obtain ⟨k, hk, -⟩ := inFrame_iff.mp hfirst
        exact h.enclosed y ⟨frame, k, hk, h.tagged hr hframe hk, hreach⟩ n hn hid hown

theorem foldl_setParent {frame : NodeId} (hframe : t.Made frame) {roots : List NodeId}
    (hroots : ∀ x ∈ roots, ¬ReflTransGen t'.InFrame frame x ∧
      (t'.parent? x = none ∨ t'.parent? x = some frame) ∧
      ∀ n ∈ t.nodes, n.id = x → n.isOwn = true → t.Encloses x) :
    Respects t (roots.foldl (fun t root => t.setParent frame root) t') := by
  induction roots generalizing t' with
  | nil => exact h
  | cons x roots ih =>
    obtain ⟨hout, hfree, hown⟩ := hroots x List.mem_cons_self
    refine ih (h.setParent hr hframe hout hfree hown) fun y hy => ?_
    obtain ⟨hout', hfree', hown'⟩ := hroots y (List.mem_cons_of_mem x hy)
    exact ⟨not_reaches_setParent hout', free_setParent x hfree', hown'⟩

/-- What moves with a generated node is not the host's, or is around it. -/
theorem framedTree (hx : t.Made x) (label : String) {members : List NodeId}
    (hm : ∀ m ∈ members, t.Made m) : Respects t (Pass.framedTree t' x label members) := by
  have hcaptioned : ∀ position, Respects t (t'.modifyNode x (Pass.captioned label position)) :=
    fun _ => h.modifyNode hr (fun _ => ⟨rfl, rfl, rfl⟩) (fun _ => rfl) (fun _ => rfl)
      fun n hn hid => h.not_own hr hx hn hid
  have hparent : ∀ position y, (t'.modifyNode x (Pass.captioned label position)).parent? y =
      t'.parent? y := fun position y =>
    parent?_modifyNode (f := Pass.captioned label position) (fun _ => rfl) fun _ => rfl
  refine (hcaptioned _).foldl_setParent hr hx ?_
  intro root hroot
  obtain ⟨m, hmem, hmoved⟩ := List.mem_filterMap.mp hroot
  have hin : ∀ position,
      (t'.modifyNode x (Pass.captioned label position)).InFrame = t'.InFrame := by
    intro position
    funext a b
    rw [InFrame, hparent, InFrame]
  rw [hin, hparent]
  refine ⟨h.nested.not_reaches_movedRoot? hmoved, h.nested.parent?_movedRoot? hmoved, ?_⟩
  intro n hn hid hown
  rcases reflTransGen_iff_eq_or_transGen.mp (reaches_movedRoot? hmoved) with rfl | hreach
  · rw [hr.not_own_of_made (hm root hmem) hn hid] at hown
    cases hown
  · obtain ⟨b, hfirst, -⟩ := TransGen.head'_iff.mp hreach
    obtain ⟨k, hk, -⟩ := inFrame_iff.mp hfirst
    exact h.enclosed root ⟨m, k, hk, h.tagged hr (hm m hmem) hk, hreach⟩ n hn hid hown

theorem disconnect {y : SocketId} (hy : ¬t.OwnSocket y) : Respects t (t'.disconnect y) := by
  refine h.relink hr rfl (h.besides rfl (Nat.le_refl _) rfl fun l _ htarget =>
    List.mem_filter.trans (and_iff_left ?_))
  have : l.target.socket ≠ y := fun heq => hy (heq ▸ htarget.socket)
  simpa using this

theorem reconnect {a b : SocketRef} (hb : ¬t.OwnSocket b.socket) :
    Respects t (Tree.reconnect a b t').2 := by
  have hd := h.disconnect hr hb
  -- what comes in leads to the one socket that is connected
  have hadded : ∀ {added : List Link}, (∀ l ∈ added, l.target.socket = b.socket) → ∀ l,
      t.OwnEnd l.source → t.OwnEnd l.target →
      (l ∈ (t'.disconnect b.socket).links ++ added ↔ l ∈ (t'.disconnect b.socket).links) := by
    intro added hto l _ htarget
    refine ⟨fun hl => (List.mem_append.mp hl).resolve_right fun hl => ?_, List.mem_append_left _⟩
    exact hb (hto l hl ▸ htarget.socket)
  rw [reconnect_run]
  split
  · refine hd.relink hr rfl (hd.besides rfl (Nat.le_refl _) rfl (hadded fun l hl => ?_))
    simpa using (List.mem_filter.mp hl).2
  · refine hd.relink hr rfl (hd.besides rfl (Nat.le_succ _) rfl (hadded fun l hl => ?_))
    rw [List.mem_singleton.mp hl]

/-- An edit of the boundary, after which the group nodes show it. -/
theorem redraw (hnodes : t''.nodes = t'.nodes) (hbesides : Besides t t' t'') :
    Respects t t''.syncGroups := by
  refine h.renew hr (g := t''.mirrored) ?_ ?_ (fun n => ?_) (fun n => ?_) ?_ ⟨hbesides.editor,
    hbesides.supply, hbesides.distinct, hbesides.boundary, hbesides.links⟩
  rotate_left 2
  · unfold mirrored
    split
    · exact ⟨rfl, rfl, rfl⟩
    · split <;> exact ⟨rfl, rfl, rfl⟩
  · unfold mirrored
    split
    · rfl
    · split <;> rfl
  rotate_left
  · rw [nodes_syncGroups, hnodes]
  · intro n hn hown
    have hg : n.id.isGroup = false := by
      cases hg : n.id.isGroup with
      | true => simp [Node.isOwn, hg] at hown
      | false => rfl
    obtain ⟨hi, ho⟩ := ne_of_not_group hg
    simp [mirrored, hi, ho]
  · intro n hn hown y hy
    have hold := h.sockets n hn hown y
    have hshown : ∀ side, y ∈ (t''.shownInside side).map (·.id) → ¬t.OwnSocket y := by
      intro side hy
      obtain ⟨s, hs, -, rfl⟩ := mem_ids_shownInside.mp hy
      exact (hbesides.boundary s hs).2
    unfold mirrored at hy
    split at hy
    · rcases List.mem_append.mp hy with hy | hy
      · exact hold (List.mem_append_left _ hy)
      · exact hshown _ hy
    · split at hy
      · rcases List.mem_append.mp hy with hy | hy
        · exact hshown _ hy
        · exact hold (List.mem_append_right _ hy)
      · exact hold hy

theorem withSocket (side : Side) (name : String) (type : SocketType) :
    Respects t (t'.withSocket side name type) := by
  refine h.redraw hr rfl ⟨rfl, Nat.le_succ _, ?_, ?_, fun _ _ _ => .rfl⟩
  · rw [List.map_append, List.nodup_append]
    refine ⟨h.distinct, by simp, ?_⟩
    intro a ha b hb heq
    obtain ⟨s, hs, rfl⟩ := List.mem_map.mp ha
    have hb' : b = ⟨t'.supply⟩ := by simpa using hb
    have := h.below s hs
    rw [heq, hb'] at this
    exact Nat.lt_irrefl _ this
  · intro s hs
    rcases List.mem_append.mp hs with hs | hs
    · exact ⟨Nat.lt_succ_of_lt (h.below s hs), h.boundary s hs⟩
    · rw [List.mem_singleton.mp hs]
      exact ⟨Nat.lt_succ_self _, hr.not_ownSocket_of_supply h.supply⟩

theorem modifySocket {f : Socket → Socket} (hf : ∀ s, (f s).id = s.id) (y : SocketId) :
    Respects t (t'.modifySocket y f) := by
  have hids : ∀ s : Socket, (if s.id == y then f s else s).id = s.id := by
    intro s
    split
    · exact hf s
    · rfl
  refine h.redraw hr rfl ⟨rfl, Nat.le_refl _, ?_, ?_, fun _ _ _ => .rfl⟩
  · rw [List.map_map]
    exact (List.map_congr_left fun s _ => hids s) ▸ h.distinct
  · intro s hs
    obtain ⟨r, hr, rfl⟩ := List.mem_map.mp hs
    rw [hids]
    exact ⟨h.below r hr, h.boundary r hr⟩

theorem retyped {y : SocketId} (hy : ¬t.OwnSocket y) (type : SocketType) :
    Respects t (t'.retyped y type) := by
  have hmodified := h.modifySocket hr (f := retype type) (fun _ => rfl) y
  exact hmodified.relink hr rfl (hmodified.besides rfl (Nat.le_refl _) rfl fun l hs ht =>
    List.mem_filter.trans (and_iff_left (by simp [not_touches_of_ownEnds hy hs ht])))

theorem dropSocket {y : SocketId} (hy : ¬t.OwnSocket y) : Respects t (t'.dropSocket y) := by
  cases hb : t'.boundarySocket? y with
  | none =>
    rw [dropSocket_of_missing hb]
    exact h
  | some s =>
    rw [dropSocket_of_found hb]
    refine h.redraw hr rfl
      ⟨rfl, Nat.le_refl _, h.distinct.sublist (List.filter_sublist.map _), ?_, ?_⟩
    · intro s hs
      have hs := (List.mem_filter.mp hs).1
      exact ⟨h.below s hs, h.boundary s hs⟩
    · exact fun l hs ht =>
        List.mem_filter.trans (and_iff_left (by simp [not_touches_of_ownEnds hy hs ht]))

theorem keepInputs (names : List String) : Respects t (t'.keepInputs names) := by
  have drop : ∀ (ys : List SocketId) {u : Tree}, Respects t u → (∀ y ∈ ys, ¬t.OwnSocket y) →
      Respects t (ys.foldl Tree.dropSocket u) := by
    intro ys
    induction ys with
    | nil => exact fun hu _ => hu
    | cons y ys ih =>
      exact fun hu hys => ih (hu.dropSocket hr (hys y List.mem_cons_self)) fun z hz =>
        hys z (List.mem_cons_of_mem y hz)
  refine drop _ h fun y hy => ?_
  obtain ⟨s, hs, rfl⟩ := List.mem_map.mp hy
  exact h.boundary s (List.mem_filter.mp (List.mem_filter.mp hs).1).1

theorem socketFor (side : Side) (name : String) (type : SocketType) :
    Respects t (Tree.socketFor side name type t').2 ∧
      ∀ y, (Tree.socketFor side name type t').1 = .ok y → ¬t.OwnSocket y := by
  rw [Tree.socketFor_run h.distinct]
  cases t'.adjustType type with
  | error fault => exact ⟨h, by simp⟩
  | ok wanted =>
    dsimp only
    cases hb : t'.boundaryNamed? side name with
    | none =>
      refine ⟨h.withSocket hr side name wanted, ?_⟩
      rintro _ ⟨⟩
      exact hr.not_ownSocket_of_supply h.supply
    | some s =>
      have hs := h.boundary s (Tree.mem_of_boundaryNamed? hb)
      refine ⟨?_, ?_⟩
      · dsimp only
        split
        · exact h
        · exact h.retyped hr hs wanted
      · rintro _ ⟨⟩
        exact hs

theorem setSocketDefault (y : SocketId) (value : Value) :
    Respects t (Tree.setSocketDefault y value t').2 := by
  cases hs : t'.boundarySocket? y with
  | none =>
    rw [Tree.setSocketDefault_of_missing hs]
    exact h
  | some s =>
    rw [Tree.setSocketDefault_run hs]
    split
    · exact h
    · exact h.modifySocket hr (f := Tree.redefault _) (fun _ => rfl) y

end Respects

/-- Trees that their parts are in step in are regular, if frames are nested. -/
theorem Hosted.regular (h : t.Hosted) (hn : t.Nested)
    (hg : ∀ n ∈ t.nodes, n.id.isGroup = true → n.type.isBuilt = false) : t.Regular where
  sane := h.sane
  nested := hn
  supply := by
    obtain ⟨n, hn, -⟩ := h.grouped.output
    have := h.sane.nodesBelow n (mem_of_node? hn)
    rw [id_of_node? hn] at this
    exact this
  groups := hg
  parents := by
    intro n hn f hf
    obtain ⟨m, hm⟩ := contains_iff.mp (h.parents n hn f hf)
    exact id_of_node? hm ▸ h.sane.nodesBelow m (mem_of_node? hm)
  distinct := h.grouped.distinct
  below := fun s hs => h.grouped.below h.sane hs
  apart := by
    intro s hs id n hn hx
    have hshown : s.id ∈ (t.shownInside s.side).map (·.id) :=
      mem_ids_shownInside.mpr ⟨s, hs, rfl, rfl⟩
    cases hside : s.side with
    | input =>
      obtain ⟨m, hm, ho, -⟩ := h.grouped.input
      rw [hside, ← ho] at hshown
      rw [h.sane.owner id _ n m s.id hn hm hx (List.mem_append_right _ hshown)]
      rfl
    | output =>
      obtain ⟨m, hm, hi, -⟩ := h.grouped.output
      rw [hside, ← hi] at hshown
      rw [h.sane.owner id _ n m s.id hn hm hx (List.mem_append_left _ hshown)]
      rfl

theorem Respects.regular (h : t.Respects t') (hh : t'.Hosted) : t'.Regular :=
  hh.regular h.nested h.groupTypes

end Tree

end FormulaGraph
