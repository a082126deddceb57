import FormulaGraph.Proofs.Pass.Actions

/-!
A tree under the edits of its host. Whatever a host does to a new tree, and
whether it is refused or not, the parts of the tree stay in step: nodes, links,
the boundary, the group nodes that show it, the active node and frames.
-/

namespace FormulaGraph

inductive HostEdit where
  | addNode (type : NodeType) (setup : NodeSetup)
  | removeNode (id : NodeId)
  | setActive (id : Option NodeId)
  | connect (source target : SocketRef)
  | reconnect (source target : SocketRef)
  | disconnect (input : SocketId)
  | addSocket (name : String) (side : Side) (type : SocketType)
  | removeSocket (id : SocketId)
  | retypeSocket (id : SocketId) (type : SocketType)
  | setSocketDefault (id : SocketId) (value : Value)
  | compile (text : String) (options : Options)

/-- The tree that an edit leaves. What the editor does not offer is not added,
and a refused edit leaves what it had done. -/
def HostEdit.apply (t : Tree) : HostEdit → Tree
  | addNode type setup => if t.editor.offers type then (t.addNode type setup).1 else t
  | removeNode id => t.removeNode id
  | setActive id => t.setActive id
  | connect source target => (Tree.connect source target t).2
  | reconnect source target => (Tree.reconnect source target t).2
  | disconnect input => t.disconnect input
  | addSocket name side type => (Tree.addSocket name side type t).2
  | removeSocket id => (Tree.removeSocket id t).2
  | retypeSocket id type => (Tree.retypeSocket id type t).2
  | setSocketDefault id value => (Tree.setSocketDefault id value t).2
  | compile text options => (Tree.compile text options t).2

def Socket.face (s : Socket) : SocketId × String × SocketType × Option Value :=
  (s.id, s.name, s.type, s.default)

namespace Tree

/-- A link leads from an output to an input of a fitting type on another node. -/
structure LinkValid (t : Tree) (l : Link) : Prop where
  output : ∃ n, t.node? l.source.node = some n ∧ ∃ o ∈ n.outputs, o.id = l.source.socket ∧
    ∃ m, t.node? l.target.node = some m ∧ ∃ i ∈ m.inputs, i.id = l.target.socket ∧
      o.type.fits i.type = true
  apart : l.source.node ≠ l.target.node

/-- The parts of a tree are in step. -/
structure Valid (t : Tree) : Prop where
  links : ∀ l ∈ t.links, t.LinkValid l
  single : ∀ input, t.feedCount input ≤ 1
  acyclic : t.Acyclic
  shownInputs : ∃ n, t.node? .groupInput = some n ∧
    n.outputs.map Socket.face = (t.socketsOn .input).map Socket.face
  shownOutputs : ∃ n, t.node? .groupOutput = some n ∧
    n.inputs.map Socket.face = (t.socketsOn .output).map Socket.face
  names : ∀ side, ((t.socketsOn side).map (·.name)).Nodup
  types : ∀ s ∈ t.boundary, s.type ∈ t.editor.socketTypes
  defaults : ∀ s ∈ t.boundary, ∀ v, s.default = some v → v.type = s.type
  active : ∀ id, t.active = some id → t.contains id = true
  parents : ∀ n ∈ t.nodes, ∀ id, n.parent = some id → t.contains id = true

variable {t : Tree}

theorem Hosted.linkValid (h : t.Hosted) {l : Link} (hl : l ∈ t.links) : t.LinkValid l where
  output := by
    obtain ⟨a, b, ⟨n, o, hn, ho, hoid, rfl⟩, ⟨m, i, hm, hi, hiid, rfl⟩, hfits⟩ := h.joins l hl
    exact ⟨n, hn, o, ho, hoid, m, hm, i, hi, hiid, hfits⟩
  apart := by
    intro heq
    exact h.acyclic l.source.node (.single ⟨l, hl, rfl, heq.symm⟩)

theorem face_shownInside (side : Side) :
    (t.shownInside side).map Socket.face = (t.socketsOn side).map Socket.face := by
  rw [shownInside, List.map_map]
  exact List.map_congr_left fun _ _ => rfl

theorem Single.feedCount_le (h : t.Single) (input : SocketId) : t.feedCount input ≤ 1 := by
  have hcount : t.feedCount input = (t.links.map (·.target.socket)).count input := by
    rw [List.count, List.countP_map]
    rfl
  rw [hcount]
  exact List.nodup_iff_count_le_one.mp h input

theorem Hosted.names_side (h : t.Hosted) (side : Side) :
    ((t.socketsOn side).map (·.name)).Nodup := by
  have hall : ((t.socketsOn side).map fun s => (s.side, s.name)).Nodup :=
    h.names.sublist (List.filter_sublist.map _)
  have heq : (t.socketsOn side).map (fun s => (s.side, s.name)) =
      ((t.socketsOn side).map (·.name)).map (side, ·) := by
    rw [List.map_map]
    refine List.map_congr_left fun s hs => ?_
    have hside : s.side = side := by simpa using (List.mem_filter.mp hs).2
    rw [hside]
    rfl
  rw [heq] at hall
  exact hall.of_map _

theorem Hosted.valid (h : t.Hosted) : t.Valid where
  links := fun _ hl => h.linkValid hl
  single := h.sane.single.feedCount_le
  acyclic := h.acyclic
  shownInputs := by
    obtain ⟨n, hn, hout, -⟩ := h.grouped.input
    exact ⟨n, hn, hout ▸ face_shownInside .input⟩
  shownOutputs := by
    obtain ⟨n, hn, hin, -⟩ := h.grouped.output
    exact ⟨n, hn, hin ▸ face_shownInside .output⟩
  names := h.names_side
  types := fun s hs => (h.sockets s hs).type
  defaults := fun s hs => (h.sockets s hs).default
  active := h.active
  parents := h.parents

theorem Hosted.apply (h : t.Hosted) (e : HostEdit) : (e.apply t).Hosted := by
  cases e with
  | addNode type setup =>
    show (if t.editor.offers type then (t.addNode type setup).1 else t).Hosted
    split
    · exact h.addNode
    · exact h
  | removeNode id => exact h.removeNode id
  | setActive id => exact h.setActive id
  | connect source target => exact h.connect
  | reconnect source target => exact h.reconnect
  | disconnect input => exact h.disconnect input
  | addSocket name side type => exact h.addSocket
  | removeSocket id => exact h.removeSocket
  | retypeSocket id type => exact h.retypeSocket
  | setSocketDefault id value => exact h.setSocketDefault value
  | compile text options => exact h.compile text options

/-- Any sequence of edits of a new tree leaves it in step. -/
theorem valid_of_edits (editor : Editor) (edits : List HostEdit) :
    (edits.foldl HostEdit.apply (empty editor)).Valid := by
  have run : ∀ t : Tree, t.Hosted → (edits.foldl HostEdit.apply t).Hosted := by
    induction edits with
    | nil => exact fun t h => h
    | cons e edits ih => exact fun t h => ih _ (h.apply e)
  exact (run _ (hosted_empty editor)).valid

/-- A product has three links; a factor that becomes a rotation loses its own. -/
example : ([[.compile "a*b" {}], [.compile "a*b" {}, .retypeSocket ⟨2⟩ .rotation]].map fun edits =>
    (edits.foldl HostEdit.apply (empty .geometry)).links.length) = [3, 2] := by
  decide +kernel

end Tree

end FormulaGraph
