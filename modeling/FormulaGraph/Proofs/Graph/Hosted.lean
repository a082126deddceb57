import FormulaGraph.Proofs.Graph.BoundaryKeeps
import FormulaGraph.Proofs.Graph.Paths
import FormulaGraph.Proofs.Pass.Nodes

/-!
What a tree keeps under every edit of it: links join sockets that fit and close
no loop, the boundary has the types of the editor and one socket to a name, and
nodes refer to nodes that are there.
-/

namespace FormulaGraph

/-- A boundary socket that an editor can have. -/
structure Socket.Admitted (editor : Editor) (s : Socket) : Prop where
  type : s.type ∈ editor.socketTypes
  default : ∀ v, s.default = some v → v.type = s.type

/-- Two nodes whose sockets differ in their defaults at most. -/
structure Node.Matches (n m : Node) : Prop where
  inputs : n.inputs.map Socket.bare = m.inputs.map Socket.bare
  outputs : n.outputs.map Socket.bare = m.outputs.map Socket.bare

theorem Socket.map_bare_congr {α : Type} {l l' : List Socket} {g : Socket → α}
    (hg : ∀ s, g s.bare = g s) (h : l'.map Socket.bare = l.map Socket.bare) :
    l'.map g = l.map g := by
  have : ∀ l : List Socket, l.map g = (l.map Socket.bare).map g := by
    intro l
    rw [List.map_map]
    exact (List.map_congr_left fun s _ => hg s).symm
  rw [this, h, ← this]

theorem Socket.exists_of_map_bare {l l' : List Socket} {s : Socket}
    (h : l'.map Socket.bare = l.map Socket.bare) (hs : s ∈ l) :
    ∃ s' ∈ l', s'.id = s.id ∧ s'.type = s.type := by
  have hmem : s.bare ∈ l'.map Socket.bare := h ▸ List.mem_map_of_mem hs
  obtain ⟨s', hs', heq⟩ := List.mem_map.mp hmem
  exact ⟨s', hs', show s'.bare.id = s.bare.id by rw [heq],
    show s'.bare.type = s.bare.type by rw [heq]⟩

namespace Node.Matches

variable {n m : Node}

theorem refl (n : Node) : n.Matches n := ⟨rfl, rfl⟩

theorem alike (h : n.Matches m) : n.Alike m where
  inputs := Socket.map_bare_congr (fun _ => rfl) h.inputs
  outputs := Socket.map_bare_congr (fun _ => rfl) h.outputs
  inputRoles := Socket.map_bare_congr (fun _ => rfl) h.inputs
  outputRoles := Socket.map_bare_congr (fun _ => rfl) h.outputs

theorem of_eq (hi : n.inputs = m.inputs) (ho : n.outputs = m.outputs) : n.Matches m :=
  ⟨by rw [hi], by rw [ho]⟩

theorem setInputDefault (n : Node) (slot : Nat) (v : Value) :
    (n.setInputDefault slot v).Matches n := by
  refine ⟨?_, rfl⟩
  apply map_modify_of_congr
  exact fun _ => rfl

theorem setOutputDefault (n : Node) (slot : Nat) (v : Value) :
    (n.setOutputDefault slot v).Matches n := by
  refine ⟨rfl, ?_⟩
  apply map_modify_of_congr
  exact fun _ => rfl

end Node.Matches

namespace Tree

open Run

def Outlet (t : Tree) (r : SocketRef) (type : SocketType) : Prop :=
  ∃ n s, t.node? r.node = some n ∧ s ∈ n.outputs ∧ s.id = r.socket ∧ s.type = type

def Inlet (t : Tree) (r : SocketRef) (type : SocketType) : Prop :=
  ∃ n s, t.node? r.node = some n ∧ s ∈ n.inputs ∧ s.id = r.socket ∧ s.type = type

def Joins (t : Tree) (l : Link) : Prop :=
  ∃ a b, t.Outlet l.source a ∧ t.Inlet l.target b ∧ a.fits b = true

structure Hosted (t : Tree) : Prop where
  sane : t.Sane
  grouped : t.Grouped
  joins : ∀ l ∈ t.links, t.Joins l
  acyclic : t.Acyclic
  names : (t.boundary.map fun s => (s.side, s.name)).Nodup
  sockets : ∀ s ∈ t.boundary, s.Admitted t.editor
  active : ∀ id, t.active = some id → t.contains id = true
  parents : ∀ n ∈ t.nodes, ∀ id, n.parent = some id → t.contains id = true

variable {t t' : Tree} {id : NodeId}

theorem Joins.of_nodes {l : Link} (h : t.Joins l)
    (hn : ∀ id, l.touchesNode id = true → ∀ n, t.node? id = some n →
      ∃ n', t'.node? id = some n' ∧ n'.Matches n) : t'.Joins l := by
  obtain ⟨a, b, ⟨n, s, hns, hs, hsid, hst⟩, ⟨m, r, hmr, hr, hrid, hrt⟩, hfits⟩ := h
  obtain ⟨n', hn', hout⟩ := hn l.source.node (by simp [Link.touchesNode]) n hns
  obtain ⟨m', hm', hin⟩ := hn l.target.node (by simp [Link.touchesNode]) m hmr
  obtain ⟨s', hs', hid, htype⟩ := Socket.exists_of_map_bare hout.outputs hs
  obtain ⟨r', hr', hid', htype'⟩ := Socket.exists_of_map_bare hin.inputs hr
  exact ⟨a, b, ⟨n', s', hn', hs', hid.trans hsid, htype.trans hst⟩,
    ⟨m', r', hm', hr', hid'.trans hrid, htype'.trans hrt⟩, hfits⟩

namespace Hosted

section Links

theorem relink (h : t.Hosted) {links : List Link} (hsub : links ⊆ t.links)
    (hsingle : (links.map (·.target.socket)).Nodup) :
    ({ t with links := links } : Tree).Hosted where
  sane := { h.sane with ends := fun l hl => h.sane.ends l (hsub hl), single := hsingle }
  grouped := ⟨h.grouped.input, h.grouped.output, h.grouped.distinct⟩
  joins := fun l hl => h.joins l (hsub hl)
  acyclic := h.acyclic.mono hsub
  names := h.names
  sockets := h.sockets
  active := h.active
  parents := h.parents

theorem disconnect (h : t.Hosted) (x : SocketId) : (t.disconnect x).Hosted :=
  h.relink List.filter_sublist.subset (h.sane.single.sublist (List.filter_sublist.map _))

variable {a b : SocketRef}

theorem addLink (h : t.Hosted) (hf : t.linkFault? a b = none) : (t.addLink a b).Hosted := by
  obtain ⟨ha, hb⟩ := h.sane.ends_of_linkFault? hf
  obtain ⟨hl, hne, hdep⟩ := linkFault?_eq_none_iff.mp hf
  obtain ⟨⟨i, n, m, o, hn, hm, ho, hi, hos, his, hfits⟩, hfree⟩ := h.sane.linkable_iff.mp hl
  refine ⟨h.sane.addLink ha hb (feedOf?_eq_none_iff.mpr hfree),
    ⟨h.grouped.input, h.grouped.output, h.grouped.distinct⟩, ?_,
    h.acyclic.addLink hdep, h.names, h.sockets, h.active, h.parents⟩
  intro l hl
  rcases List.mem_append.mp hl with hl | hl
  · exact h.joins l hl
  · rw [List.mem_singleton.mp hl]
    refine ⟨o.type, i.type, ⟨n, o, hn, h.sane.mem_outputs hn ho hos, (mem_of_socket? ho).2, rfl⟩,
      ⟨m, i, hm, h.sane.mem_inputs hm hi his, (mem_of_socket? hi).2, rfl⟩, ?_⟩
    exact hfits

theorem connect (h : t.Hosted) : (connect a b t).2.Hosted := by
  rw [connect_run]
  cases hf : t.linkFault? a b with
  | some fault => exact h
  | none => exact h.addLink hf

theorem reconnect (h : t.Hosted) : (reconnect a b t).2.Hosted := by
  rw [reconnect_run]
  cases hf : (t.disconnect b.socket).linkFault? a b with
  | none => exact (h.disconnect b.socket).addLink hf
  | some fault =>
    have hperm : (t.links.filter (·.target.socket != b.socket) ++
        t.links.filter (·.target.socket == b.socket)).Perm t.links := by
      refine List.perm_append_comm.trans ?_
      exact List.filter_append_perm (fun l : Link => l.target.socket == b.socket) t.links
    exact h.relink hperm.subset ((hperm.map _).nodup_iff.mpr h.sane.single)

end Links

section Nodes

variable {f : Node → Node} (h : t.Hosted)
include h

/-- A node may be given other defaults and another look. The group nodes keep
what shows the boundary. -/
theorem modifyNode (hid : ∀ n, (f n).id = n.id)
    (hm : ∀ n, (f n).Matches n)
    (hg : id.isGroup = true →
      ∀ n, (f n).inputs = n.inputs ∧ (f n).outputs = n.outputs ∧ (f n).name = n.name)
    (hp : ∀ n q, (f n).parent = some q → n.parent = some q ∨ t.contains q = true) :
    (t.modifyNode id f).Hosted := by
  have hnode : ∀ x n, t.node? x = some n →
      (t.modifyNode id f).node? x = some (if x = id then f n else n) := by
    intro x n hn
    rw [node?_modifyNode hid, hn]
    rfl
  have hgroup : ∀ x n, x.isGroup = true → t.node? x = some n → ∃ n',
      (t.modifyNode id f).node? x = some n' ∧ n'.inputs = n.inputs ∧ n'.outputs = n.outputs ∧
        n'.name = n.name := by
    intro x n hx hn
    refine ⟨_, hnode x n hn, ?_⟩
    split
    · next heq => exact hg (heq ▸ hx) n
    · exact ⟨rfl, rfl, rfl⟩
  refine ⟨h.sane.modifyNode hid fun n => (hm n).alike, ⟨?_, ?_, h.grouped.distinct⟩, ?_,
    h.acyclic.mono (List.Subset.refl _), h.names, h.sockets, ?_, ?_⟩
  · obtain ⟨n, hn, hout, hname⟩ := h.grouped.input
    obtain ⟨n', hn', -, hout', hname'⟩ := hgroup _ n rfl hn
    exact ⟨n', hn', hout'.trans hout, hname' ▸ hname⟩
  · obtain ⟨n, hn, hin, hname⟩ := h.grouped.output
    obtain ⟨n', hn', hin', -, hname'⟩ := hgroup _ n rfl hn
    exact ⟨n', hn', hin'.trans hin, hname' ▸ hname⟩
  · intro l hl
    refine (h.joins l hl).of_nodes fun x _ n hn => ⟨_, hnode x n hn, ?_⟩
    split
    · exact hm n
    · exact .refl n
  · intro x hx
    rw [contains_modifyNode hid]
    exact h.active x hx
  · intro n hn q hq
    rw [contains_modifyNode hid]
    obtain ⟨m, hmem, rfl⟩ := List.mem_map.mp hn
    split at hq
    · exact (hp m q hq).elim (h.parents m hmem q) fun h => h
    · exact h.parents m hmem q hq

theorem redecorate (hid : ∀ n, (f n).id = n.id)
    (hf : ∀ n, (f n).inputs = n.inputs ∧ (f n).outputs = n.outputs ∧ (f n).name = n.name)
    (hp : ∀ n, (f n).parent = n.parent) : (t.modifyNode id f).Hosted :=
  h.modifyNode hid (fun n => .of_eq (hf n).1 (hf n).2.1) (fun _ => hf)
    fun n _ hq => .inl (hp n ▸ hq)

theorem restock (hg : id.isGroup = false) (hid : ∀ n, (f n).id = n.id)
    (hm : ∀ n, (f n).Matches n) (hp : ∀ n, (f n).parent = n.parent) :
    (t.modifyNode id f).Hosted := by
  refine h.modifyNode hid hm (fun hc => ?_) fun n _ hq => .inl (hp n ▸ hq)
  rw [hg] at hc
  cases hc

theorem setParent {parent : NodeId} (hc : t.contains parent = true) :
    (t.modifyNode id fun n => { n with parent := some parent }).Hosted := by
  refine h.modifyNode (fun _ => rfl) (fun _ => ⟨rfl, rfl⟩) (fun _ _ => ⟨rfl, rfl, rfl⟩) ?_
  rintro n _ ⟨⟩
  exact .inr hc

theorem setActive (x : Option NodeId) : (t.setActive x).Hosted where
  sane := h.sane.setActive x
  grouped := ⟨h.grouped.input, h.grouped.output, h.grouped.distinct⟩
  joins := h.joins
  acyclic := h.acyclic
  names := h.names
  sockets := h.sockets
  active := fun _ hx => (Option.filter_eq_some_iff.mp hx).2
  parents := h.parents

theorem addNode {type : NodeType} {setup : NodeSetup} : (t.addNode type setup).1.Hosted := by
  have heq := t.addNode_eq type setup
  have hlift : ∀ x n, t.node? x = some n → (t.addNode type setup).1.node? x = some n := by
    intro x n hn
    rw [node?_addNode h.sane.nodesBelow, if_neg, hn]
    rintro rfl
    have hlt := h.sane.nodesBelow n (mem_of_node? hn)
    rw [id_of_node? hn] at hlt
    exact Nat.lt_irrefl _ hlt
  have hcontains : ∀ x, t.contains x = true → (t.addNode type setup).1.contains x = true := by
    intro x hx
    obtain ⟨n, hn⟩ := contains_iff.mp hx
    exact contains_iff.mpr ⟨n, hlift x n hn⟩
  refine ⟨h.sane.addNode, ?_, ?_, ?_, ?_, ?_, ?_, ?_⟩
  · obtain ⟨n, hn, hi⟩ := h.grouped.input
    obtain ⟨m, hm, ho⟩ := h.grouped.output
    rw [heq] at hlift ⊢
    exact ⟨⟨n, hlift _ n hn, hi⟩, ⟨m, hlift _ m hm, ho⟩, h.grouped.distinct⟩
  · rw [heq] at hlift ⊢
    exact fun l hl => (h.joins l hl).of_nodes fun x _ n hn => ⟨n, hlift x n hn, .refl n⟩
  · refine h.acyclic.mono ?_
    rw [heq]
    exact List.Subset.refl _
  · rw [heq]
    exact h.names
  · rw [heq]
    exact h.sockets
  · rw [heq] at hcontains ⊢
    exact fun x hx => hcontains x (h.active x hx)
  · rw [heq] at hcontains ⊢
    intro n hn q hq
    rcases List.mem_append.mp hn with hn | hn
    · exact hcontains q (h.parents n hn q hq)
    · rw [List.mem_singleton.mp hn] at hq
      unfold addedNode at hq
      cases hname : setup.name with
      | none =>
        rw [hname] at hq
        cases hq
      | some name =>
        rw [hname] at hq
        cases hq

theorem removeNode (id : NodeId) : (t.removeNode id).Hosted := by
  cases hg : id.isGroup with
  | true =>
    unfold Tree.removeNode
    rwa [if_pos hg]
  | false =>
    have heq : t.removeNode id =
        { t with
          links := t.links.filter (!·.touchesNode id)
          nodes := (t.nodes.filter (·.id != id)).map (leaving id)
          active := t.active.filter (· != id) } := by
      unfold Tree.removeNode
      rw [if_neg (by rw [hg]; exact Bool.false_ne_true)]
      rfl
    have hnode : ∀ x n, x ≠ id → t.node? x = some n →
        (t.removeNode id).node? x = some (leaving id n) := by
      intro x n hx hn
      rw [node?_removeNode hg, if_neg hx, hn]
      rfl
    have hcontains : ∀ x, x ≠ id → t.contains x = true → (t.removeNode id).contains x = true := by
      intro x hx hc
      obtain ⟨n, hn⟩ := contains_iff.mp hc
      exact contains_iff.mpr ⟨_, hnode x n hx hn⟩
    obtain ⟨hne, hne'⟩ := ne_of_not_group hg
    refine ⟨h.sane.removeNode id, ?_, ?_, ?_, ?_, ?_, ?_, ?_⟩
    · refine h.grouped.keeps (D := (· ≠ id)) (keeps_removeNode h.sane fun hc => hc rfl) hne.symm
        hne'.symm ?_
      rw [heq]
    · intro l hl
      have hl' : l ∈ t.links.filter (!·.touchesNode id) := by rwa [heq] at hl
      obtain ⟨hmem, htouch⟩ := List.mem_filter.mp hl'
      refine (h.joins l hmem).of_nodes fun x hx n hn => ⟨_, hnode x n ?_ hn, ?_⟩
      · rintro rfl
        rw [hx] at htouch
        cases htouch
      · unfold leaving
        split <;> exact ⟨rfl, rfl⟩
    · refine h.acyclic.mono ?_
      rw [heq]
      exact List.filter_sublist.subset
    · rw [heq]
      exact h.names
    · rw [heq]
      exact h.sockets
    · intro x hx
      rw [heq] at hx
      obtain ⟨hx, hne⟩ := Option.filter_eq_some_iff.mp hx
      exact hcontains x (by simpa using hne) (h.active x hx)
    · intro n hn q hq
      rw [heq] at hn
      obtain ⟨m, hm, rfl⟩ := List.mem_map.mp hn
      have hm := (List.mem_filter.mp hm).1
      unfold leaving at hq
      split at hq
      · cases hq
      · next hleft =>
        refine hcontains q ?_ (h.parents m hm q hq)
        rintro rfl
        exact hleft (by simpa using hq)

end Nodes

end Hosted

end Tree

end FormulaGraph
