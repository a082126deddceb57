import FormulaGraph.Pass.Tag
import FormulaGraph.Proofs.Graph.View

/-!
Trees whose identities are sound: no two nodes or sockets share one, all of
them come from the supply, links lead from an output to an input that exist,
and no input is fed twice. Every edit of a tree keeps this.
-/

namespace FormulaGraph

theorem map_modify_of_congr {α β : Type} {g : α → β} {f : α → α} (h : ∀ a, g (f a) = g a)
    (l : List α) (i : Nat) : (l.modify i f).map g = l.map g := by
  apply List.ext_getElem?
  intro j
  simp only [List.getElem?_map, List.getElem?_modify]
  cases l[j]? with
  | none => rfl
  | some a => by_cases hij : i = j <;> simp [hij, h]

namespace Node

def inputIds (n : Node) : List SocketId := n.inputs.map (·.id)

def outputIds (n : Node) : List SocketId := n.outputs.map (·.id)

def socketIds (n : Node) : List SocketId := n.inputIds ++ n.outputIds

/-- The side of a socket, and how many links may meet there. -/
abbrev role (s : Socket) : Side × Bool := (s.side, s.multiConnect)

/-- Two nodes with the same sockets, by identity and role. -/
structure Alike (n m : Node) : Prop where
  inputs : n.inputIds = m.inputIds
  outputs : n.outputIds = m.outputIds
  inputRoles : n.inputs.map role = m.inputs.map role
  outputRoles : n.outputs.map role = m.outputs.map role

theorem Alike.refl (n : Node) : n.Alike n := ⟨rfl, rfl, rfl, rfl⟩

theorem Alike.trans {n m k : Node} (h : n.Alike m) (h' : m.Alike k) : n.Alike k :=
  ⟨h.1.trans h'.1, h.2.trans h'.2, h.3.trans h'.3, h.4.trans h'.4⟩

theorem Alike.socketIds {n m : Node} (h : n.Alike m) : n.socketIds = m.socketIds := by
  rw [Node.socketIds, h.inputs, h.outputs, Node.socketIds]

theorem alike_setInputDefault (n : Node) (slot : Nat) (v : Value) :
    (n.setInputDefault slot v).Alike n := by
  refine ⟨?_, rfl, ?_, rfl⟩ <;> apply map_modify_of_congr <;> intro s <;> rfl

theorem alike_setOutputDefault (n : Node) (slot : Nat) (v : Value) :
    (n.setOutputDefault slot v).Alike n := by
  refine ⟨rfl, ?_, rfl, ?_⟩ <;> apply map_modify_of_congr <;> intro s <;> rfl

/-- The sockets are on the side where they stand, and linked like new ones. -/
def Sided (n : Node) : Prop :=
  (∀ d ∈ n.inputs.map role, d = (.input, false)) ∧ ∀ d ∈ n.outputs.map role, d = (.output, true)

theorem Sided.input {n : Node} {s : Socket} (h : n.Sided) (hs : s ∈ n.inputs) :
    s.side = .input ∧ s.multiConnect = false := by
  simpa using h.1 _ (List.mem_map_of_mem hs)

theorem Sided.output {n : Node} {s : Socket} (h : n.Sided) (hs : s ∈ n.outputs) :
    s.side = .output := by
  have := h.2 _ (List.mem_map_of_mem hs)
  exact (Prod.mk.inj this).1

theorem Sided.of_alike {n m : Node} (h : m.Sided) (ha : n.Alike m) : n.Sided := by
  unfold Sided
  rw [ha.inputRoles, ha.outputRoles]
  exact h

end Node

namespace Tree

def HasOutput (t : Tree) (r : SocketRef) : Prop :=
  ∃ n, t.node? r.node = some n ∧ r.socket ∈ n.outputIds

def HasInput (t : Tree) (r : SocketRef) : Prop :=
  ∃ n, t.node? r.node = some n ∧ r.socket ∈ n.inputIds

structure Sane (t : Tree) : Prop where
  nodes : (t.nodes.map (·.id)).Nodup
  sided : ∀ id n, t.node? id = some n → n.Sided
  distinct : ∀ id n, t.node? id = some n → n.socketIds.Nodup
  owner : ∀ i j n m x, t.node? i = some n → t.node? j = some m →
    x ∈ n.socketIds → x ∈ m.socketIds → i = j
  nodesBelow : ∀ n ∈ t.nodes, n.id.index < t.supply
  socketsBelow : ∀ id n x, t.node? id = some n → x ∈ n.socketIds → x.index < t.supply
  ends : ∀ l ∈ t.links, t.HasOutput l.source ∧ t.HasInput l.target
  single : t.Single

variable {t t' : Tree}

/-- An edit that adds nothing keeps identities sound. -/
theorem Sane.shrink (h : t.Sane) (hn : (t'.nodes.map (·.id)).Sublist (t.nodes.map (·.id)))
    (hv : ∀ id n', t'.node? id = some n' → ∃ n, t.node? id = some n ∧ n'.Alike n)
    (hl : t'.links.Sublist t.links)
    (he : ∀ l ∈ t'.links, (t'.node? l.source.node).isSome ∧ (t'.node? l.target.node).isSome)
    (hs : t.supply ≤ t'.supply) : t'.Sane where
  nodes := h.nodes.sublist hn
  sided := by
    intro id n' hn'
    obtain ⟨n, hn, ha⟩ := hv id n' hn'
    exact (h.sided id n hn).of_alike ha
  distinct := by
    intro id n' hn'
    obtain ⟨n, hn, ha⟩ := hv id n' hn'
    rw [ha.socketIds]
    exact h.distinct id n hn
  owner := by
    intro i j n' m' x hn' hm' hx hy
    obtain ⟨n, hn, ha⟩ := hv i n' hn'
    obtain ⟨m, hm, hb⟩ := hv j m' hm'
    rw [ha.socketIds] at hx
    rw [hb.socketIds] at hy
    exact h.owner i j n m x hn hm hx hy
  nodesBelow := by
    intro n hn'
    obtain ⟨m, hm, hid⟩ := List.mem_map.mp (hn.subset (List.mem_map_of_mem hn'))
    exact Nat.lt_of_lt_of_le (hid ▸ h.nodesBelow m hm) hs
  socketsBelow := by
    intro id n' x hn' hx
    obtain ⟨n, hn, ha⟩ := hv id n' hn'
    rw [ha.socketIds] at hx
    exact Nat.lt_of_lt_of_le (h.socketsBelow id n x hn hx) hs
  ends := by
    intro l hl'
    obtain ⟨⟨n, hn, hx⟩, ⟨m, hm, hy⟩⟩ := h.ends l (hl.subset hl')
    obtain ⟨hs, ht⟩ := he l hl'
    obtain ⟨n', hn'⟩ := Option.isSome_iff_exists.mp hs
    obtain ⟨m', hm'⟩ := Option.isSome_iff_exists.mp ht
    obtain ⟨n₀, hn₀, ha⟩ := hv _ n' hn'
    obtain ⟨m₀, hm₀, hb⟩ := hv _ m' hm'
    rw [hn] at hn₀
    rw [hm] at hm₀
    cases hn₀
    cases hm₀
    exact ⟨⟨n', hn', ha.outputs ▸ hx⟩, ⟨m', hm', hb.inputs ▸ hy⟩⟩
  single := single_of_sublist h.single hl

theorem Sane.reshape (h : t.Sane) (hn : t'.nodes.map (·.id) = t.nodes.map (·.id))
    (hv : ∀ id n', t'.node? id = some n' → ∃ n, t.node? id = some n ∧ n'.Alike n)
    (hl : t'.links.Sublist t.links) (hs : t.supply ≤ t'.supply) : t'.Sane := by
  refine h.shrink (by rw [hn]) hv hl (fun l hl' => ?_) hs
  have present : ∀ id n, t.node? id = some n → (t'.node? id).isSome := by
    intro id n hid
    have : id ∈ t'.nodes.map (·.id) := by
      rw [hn]
      exact List.mem_map.mpr ⟨n, mem_of_node? hid, id_of_node? hid⟩
    obtain ⟨m, hm, rfl⟩ := List.mem_map.mp this
    exact Option.isSome_iff_exists.mpr (node?_isSome_of_mem hm)
  obtain ⟨⟨n, hn, -⟩, ⟨m, hm, -⟩⟩ := h.ends l (hl.subset hl')
  exact ⟨present _ n hn, present _ m hm⟩

theorem Sane.modifyNode (h : t.Sane) {id : NodeId} {f : Node → Node} (hf : ∀ n, (f n).id = n.id)
    (ha : ∀ n, (f n).Alike n) : (t.modifyNode id f).Sane := by
  refine h.reshape (map_id_modifyNode hf) (fun x n' hn' => ?_) (List.Sublist.refl _) (Nat.le_refl _)
  rw [node?_modifyNode hf] at hn'
  obtain ⟨n, hn, rfl⟩ := Option.map_eq_some_iff.mp hn'
  refine ⟨n, hn, ?_⟩
  split
  · exact ha n
  · exact .refl n

theorem Sane.disconnect (h : t.Sane) (s : SocketId) : (t.disconnect s).Sane :=
  h.reshape rfl (fun _ n hn => ⟨n, hn, .refl n⟩) List.filter_sublist (Nat.le_refl _)

theorem Sane.setActive (h : t.Sane) (id : Option NodeId) : (t.setActive id).Sane :=
  h.reshape rfl (fun _ n hn => ⟨n, hn, .refl n⟩) (List.Sublist.refl _) (Nat.le_refl _)

theorem alike_leaving (id : NodeId) (n : Node) : (leaving id n).Alike n := by
  unfold leaving
  split <;> exact ⟨rfl, rfl, rfl, rfl⟩

theorem Sane.removeNode (h : t.Sane) (id : NodeId) : (t.removeNode id).Sane := by
  by_cases hg : id.isGroup = true
  · unfold Tree.removeNode
    rwa [if_pos hg]
  · have hg : id.isGroup = false := by simpa using hg
    have hlinks : (t.removeNode id).links = t.links.filter (!·.touchesNode id) := by
      unfold Tree.removeNode
      rw [if_neg (by simp [hg])]
    have hnodes : (t.removeNode id).nodes =
        (t.nodes.filter (·.id != id)).map (leaving id) := by
      unfold Tree.removeNode
      rw [if_neg (by simp [hg])]
      rfl
    have hsupply : (t.removeNode id).supply = t.supply := by
      unfold Tree.removeNode
      rw [if_neg (by simp [hg])]
    refine h.shrink ?_ ?_ ?_ ?_ (Nat.le_of_eq hsupply.symm)
    · rw [hnodes, List.map_map]
      have : (t.nodes.filter (·.id != id)).map ((·.id) ∘ leaving id) =
          (t.nodes.filter (·.id != id)).map (·.id) :=
        List.map_congr_left fun n _ => id_leaving
      rw [this]
      exact List.filter_sublist.map _
    · intro x n' hn'
      rw [node?_removeNode hg] at hn'
      split at hn'
      · cases hn'
      · obtain ⟨n, hn, rfl⟩ := Option.map_eq_some_iff.mp hn'
        exact ⟨n, hn, alike_leaving id n⟩
    · rw [hlinks]
      exact List.filter_sublist
    · intro l hl
      rw [hlinks, List.mem_filter] at hl
      have ht : l.source.node ≠ id ∧ l.target.node ≠ id := by
        simpa [Link.touchesNode] using hl.2
      obtain ⟨⟨n, hn, -⟩, ⟨m, hm, -⟩⟩ := h.ends l hl.1
      rw [node?_removeNode hg, node?_removeNode hg, if_neg ht.1, if_neg ht.2, hn, hm]
      exact ⟨rfl, rfl⟩

section Additions

theorem map_id_instances (specs : List SocketSpec) (side : Side) (first : Nat) :
    (SocketSpec.instances specs side first).map (·.id) =
      (List.range' first specs.length).map SocketId.mk := by
  apply List.ext_getElem?
  intro i
  simp only [SocketSpec.instances, List.getElem?_map, List.getElem?_mapIdx]
  by_cases h : i < specs.length
  · simp [h]
  · simp [h]

theorem role_instances (specs : List SocketSpec) (side : Side) (first : Nat) :
    ∀ d ∈ (SocketSpec.instances specs side first).map Node.role, d = (side, side.multiConnect) := by
  intro d hd
  obtain ⟨s, hs, rfl⟩ := List.mem_map.mp hd
  obtain ⟨i, hi, rfl⟩ := List.mem_mapIdx.mp hs
  rfl

variable {type : NodeType} {setup : NodeSetup}

theorem addedNode_alike : (t.addedNode type setup).Alike (type.instantiate t.supply) := by
  unfold addedNode
  cases setup.name <;> exact ⟨rfl, rfl, rfl, rfl⟩

theorem socketIds_addedNode : (t.addedNode type setup).socketIds =
    (List.range' (t.supply + 1) (type.inputs.length + type.outputs.length)).map SocketId.mk := by
  rw [addedNode_alike.socketIds]
  simp only [Node.socketIds, Node.inputIds, Node.outputIds, NodeType.instantiate,
    map_id_instances]
  rw [← List.map_append, List.range'_append_1]

theorem Sane.addNode (h : t.Sane) : (t.addNode type setup).1.Sane := by
  have hnode : ∀ x, (t.addNode type setup).1.node? x = _ := fun x => node?_addNode h.nodesBelow
  have hnew : ∀ x ∈ (t.addedNode type setup).socketIds,
      t.supply < x.index ∧ x.index < t.supply + type.idCount := by
    intro x hx
    rw [socketIds_addedNode] at hx
    obtain ⟨i, hi, rfl⟩ := List.mem_map.mp hx
    rw [List.mem_range'_1] at hi
    have : type.idCount = 1 + type.inputs.length + type.outputs.length := rfl
    constructor <;> dsimp only <;> omega
  have hold : ∀ {id n}, t.node? id = some n → id ≠ ⟨t.supply⟩ := by
    rintro id n hn rfl
    have := h.nodesBelow n (mem_of_node? hn)
    rw [id_of_node? hn] at this
    exact Nat.lt_irrefl _ this
  have hlift : ∀ {id n}, t.node? id = some n → (t.addNode type setup).1.node? id = some n := by
    intro id n hn
    rw [hnode, if_neg (hold hn), hn]
  have heq := t.addNode_eq type setup
  refine ⟨?_, ?_, ?_, ?_, ?_, ?_, ?_, ?_⟩
  · rw [heq]
    simp only [List.map_append, List.map_cons, List.map_nil]
    rw [List.nodup_append]
    refine ⟨h.nodes, by simp, ?_⟩
    intro a ha b hb
    obtain ⟨n, hn, rfl⟩ := List.mem_map.mp ha
    rw [List.mem_singleton.mp hb, t.id_addedNode]
    intro hc
    exact hold (node?_of_mem h.nodes hn) hc
  · intro id n hn
    rw [hnode] at hn
    split at hn
    · cases hn
      refine Node.Sided.of_alike ?_ addedNode_alike
      exact ⟨role_instances _ _ _, role_instances _ _ _⟩
    · exact h.sided id n hn
  · intro id n hn
    rw [hnode] at hn
    split at hn
    · cases hn
      rw [socketIds_addedNode]
      exact (List.nodup_range' _).map fun a b hab => by simpa using hab
    · exact h.distinct id n hn
  · intro i j n m x hn hm hx hy
    rw [hnode] at hn hm
    split at hn <;> split at hm
    · next hi hj => rw [hi, hj]
    · cases hn
      exact absurd (h.socketsBelow j m x hm hy) (by have := hnew x hx; omega)
    · cases hm
      exact absurd (h.socketsBelow i n x hn hx) (by have := hnew x hy; omega)
    · exact h.owner i j n m x hn hm hx hy
  · intro n hn
    rw [heq] at hn ⊢
    rcases List.mem_append.mp hn with hn | hn
    · exact Nat.lt_of_lt_of_le (h.nodesBelow n hn) (Nat.le_add_right _ _)
    · rw [List.mem_singleton.mp hn, t.id_addedNode]
      exact Nat.lt_add_of_pos_right (by unfold NodeType.idCount; omega)
  · intro id n x hn hx
    rw [hnode] at hn
    rw [heq]
    split at hn
    · cases hn
      exact (hnew x hx).2
    · exact Nat.lt_of_lt_of_le (h.socketsBelow id n x hn hx) (Nat.le_add_right _ _)
  · intro l hl
    rw [heq] at hl
    obtain ⟨⟨n, hn, hx⟩, ⟨m, hm, hy⟩⟩ := h.ends l hl
    exact ⟨⟨n, hlift hn, hx⟩, ⟨m, hlift hm, hy⟩⟩
  · have hlinks : (t.addNode type setup).1.links = t.links := by rw [heq]
    exact single_of_sublist h.single (by rw [hlinks])

theorem Sane.addLink {a b : SocketRef} (h : t.Sane) (ha : t.HasOutput a) (hb : t.HasInput b)
    (hf : t.feedOf? b.socket = none) : (t.addLink a b).Sane where
  nodes := h.nodes
  sided := h.sided
  distinct := h.distinct
  owner := h.owner
  nodesBelow := fun n hn => Nat.lt_succ_of_lt (h.nodesBelow n hn)
  socketsBelow := fun id n x hn hx => Nat.lt_succ_of_lt (h.socketsBelow id n x hn hx)
  ends := by
    intro l hl
    rcases List.mem_append.mp hl with hl | hl
    · exact h.ends l hl
    · rw [List.mem_singleton.mp hl]
      exact ⟨ha, hb⟩
  single := single_addLink h.single hf

end Additions

end Tree

end FormulaGraph
