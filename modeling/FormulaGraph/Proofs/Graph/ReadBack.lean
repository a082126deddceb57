import FormulaGraph.Proofs.Graph.Keeps
import FormulaGraph.Proofs.Lowering

/-!
Reading a tree back. Links are followed upstream: the group input stands for
variables, a value node for its number, any other node for the operation of its
type and properties on all of its inputs. A tree has at most one reading at a
place, and it is not changed by what happens elsewhere.
-/

namespace FormulaGraph

open Numeric

/-- Where a tree is read: at an output of a node, or at an input. -/
inductive Place where
  | output (r : SocketRef)
  | input (s : Socket)

namespace Tree

variable {n : Node} {id : NodeId} {s : Socket}
  {s' : Socket} {r : SocketRef} {place : Place} {m : Meaning}

def outputType? (t : Tree) (r : SocketRef) : Option SocketType :=
  (t.node? r.node).bind fun n => (n.outputs.find? (·.id == r.socket)).map (·.type)

inductive Reads (t : Tree) : Place → Meaning → Prop where
  | boundary {r : SocketRef} {n : Node} {s : Socket} (node : t.node? r.node = some n)
      (outer : r.node = .groupInput) (mem : s ∈ n.outputs) (socket : s.id = r.socket) :
      Reads t (.output r) (.variable s.name)
  | constant {r : SocketRef} {n : Node} {s : Socket} {x : Numeric.Single}
      (node : t.node? r.node = some n) (inner : r.node ≠ .groupInput) (type : n.type = .value)
      (slot : n.outputs[0]? = some s) (socket : s.id = r.socket)
      (default : s.default = some (.float x)) : Reads t (.output r) (.constant x)
  | operation {r : SocketRef} {n : Node} {s : Socket} {k : Nat} {given : Nat → Meaning}
      (node : t.node? r.node = some n) (inner : r.node ≠ .groupInput) (type : n.type ≠ .value)
      (slot : n.outputs[k]? = some s) (socket : s.id = r.socket)
      (inputs : ∀ i x, n.inputs[i]? = some x → Reads t (.input x) (given i)) :
      Reads t (.output r)
        (.operation n.type n.properties k (n.inputs.mapIdx fun i _ => given i))
  | stored {s : Socket} (free : t.sourceOf? s.id = none) : Reads t (.input s) (.stored s.default)
  | fed {s : Socket} {r : SocketRef} {source : SocketType} {m : Meaning}
      (feed : t.sourceOf? s.id = some r) (type : t.outputType? r = some source)
      (reads : Reads t (.output r) m) : Reads t (.input s) (m.into source s.type)

def ReadsOutput (t : Tree) (name : String) (m : Meaning) : Prop :=
  ∃ s, t.boundaryNamed? .output name = some s ∧ t.Reads (.input s) m

variable {t t' : Tree} {D : NodeId → Prop}

theorem Sane.output_unique (hs : t.Sane) (hn : t.node? id = some n) {i j : Nat}
    (hi : n.outputs[i]? = some s) (hj : n.outputs[j]? = some s') (hid : s.id = s'.id) : i = j := by
  have hd : n.outputIds.Nodup := (List.nodup_append.mp (hs.distinct id n hn)).2.1
  have hi' : n.outputIds[i]? = some s.id := by
    rw [Node.outputIds, List.getElem?_map, hi]
    rfl
  have hj' : n.outputIds[j]? = some s.id := by
    rw [Node.outputIds, List.getElem?_map, hj, hid]
    rfl
  have hlt : i < n.outputIds.length := (List.getElem?_eq_some_iff.mp hi').1
  exact List.getElem?_inj hlt hd |>.mp (hi'.trans hj'.symm)

theorem Sane.output_unique_of_mem (hs : t.Sane) (hn : t.node? id = some n)
    (h : s ∈ n.outputs) (h' : s' ∈ n.outputs) (hid : s.id = s'.id) : s = s' := by
  have hd : n.outputIds.Nodup := (List.nodup_append.mp (hs.distinct id n hn)).2.1
  exact List.inj_on_of_nodup_map hd h h' hid

theorem Sane.outputType?_eq (hs : t.Sane) (hn : t.node? id = some n) (h : s ∈ n.outputs) :
    t.outputType? ⟨id, s.id⟩ = some s.type := by
  unfold outputType?
  rw [hn]
  cases hf : n.outputs.find? (·.id == s.id) with
  | none =>
    have := List.find?_eq_none.mp hf s h
    simp at this
  | some s' =>
    have hid : s'.id = s.id := by simpa using List.find?_some hf
    rw [hs.output_unique_of_mem hn (List.mem_of_find?_eq_some hf) h hid] at hf
    simp [hf]

theorem reads_unfed {k : Nat} (hn : t.node? r.node = some n)
    (hr : r.node ≠ .groupInput) (ht : n.type ≠ .value) (hs : n.outputs[k]? = some s)
    (hid : s.id = r.socket) (hfree : ∀ x ∈ n.inputs, t.sourceOf? x.id = none) :
    t.Reads (.output r)
      (.operation n.type n.properties k ((n.inputs.map (·.default)).map .stored)) := by
  have hreads : t.Reads (.output r) (.operation n.type n.properties k
      (n.inputs.mapIdx fun i _ => .stored (n.inputs[i]?.bind (·.default)))) := by
    refine .operation hn hr ht hs hid fun i x hx => ?_
    rw [hx]
    exact .stored (hfree x (List.mem_of_getElem? hx))
  have heq : (n.inputs.mapIdx fun i _ => Meaning.stored (n.inputs[i]?.bind (·.default))) =
      (n.inputs.map (·.default)).map .stored := by
    refine List.ext_getElem? fun i => ?_
    cases hx : n.inputs[i]? <;> simp [hx]
  rwa [heq] at hreads

/-- A place has at most one reading. -/
theorem Reads.unique (hs : t.Sane) {m' : Meaning} (h : t.Reads place m)
    (h' : t.Reads place m') : m = m' := by
  induction h generalizing m' with
  | boundary node outer mem socket =>
    cases h' with
    | boundary node' _ mem' socket' =>
      rw [node] at node'
      cases node'
      rw [hs.output_unique_of_mem node mem mem' (socket.trans socket'.symm)]
    | constant _ inner => exact absurd outer inner
    | operation _ inner => exact absurd outer inner
  | constant node inner type slot socket default =>
    cases h' with
    | boundary _ outer => exact absurd outer inner
    | constant node' _ _ slot' _ default' =>
      rw [node] at node'
      cases node'
      rw [slot] at slot'
      cases slot'
      rw [default] at default'
      cases default'
      rfl
    | operation node' _ type' =>
      rw [node] at node'
      cases node'
      exact absurd type type'
  | operation node inner type slot socket inputs ih =>
    cases h' with
    | boundary _ outer => exact absurd outer inner
    | constant node' _ type' =>
      rw [node] at node'
      cases node'
      exact absurd type' type
    | operation node' _ _ slot' socket' inputs' =>
      rw [node] at node'
      cases node'
      cases hs.output_unique node slot slot' (socket.trans socket'.symm)
      congr 1
      refine List.mapIdx_eq_mapIdx_iff.mpr fun i hi => ?_
      have hx := List.getElem?_eq_getElem hi
      exact ih i _ hx (inputs' i _ hx)
  | stored free =>
    cases h' with
    | stored => rfl
    | fed feed =>
      rw [free] at feed
      cases feed
  | fed feed type reads ih =>
    cases h' with
    | stored free =>
      rw [free] at feed
      cases feed
    | fed feed' type' reads' =>
      rw [feed] at feed'
      cases feed'
      rw [type] at type'
      cases type'
      rw [ih reads']

/-- Nodes that read from each other only. -/
def Closed (t : Tree) (D : NodeId → Prop) : Prop :=
  ∀ id n x r, D id → t.node? id = some n → x ∈ n.inputIds → t.sourceOf? x = some r → D r.node

theorem outputType?_of_keeps (hk : Keeps D t t') (hr : D r.node) :
    t'.outputType? r = t.outputType? r := by
  have hb := hk.nodes r.node hr
  unfold outputType?
  have : ∀ t : Tree, ((t.node? r.node).bind fun n => (n.outputs.find? (·.id == r.socket)).map
      (·.type)) = (t.bare? r.node).bind fun n => (n.outputs.find? (·.id == r.socket)).map
      (·.type) := by
    intro t
    unfold bare?
    cases t.node? r.node <;> rfl
  rw [this, this, hb]

def Within (t : Tree) (D : NodeId → Prop) : Place → Prop
  | .output r => D r.node
  | .input s => ∃ id n, D id ∧ t.node? id = some n ∧ s ∈ n.inputs

/-- A reading within nodes that are kept is kept. -/
theorem Reads.keeps (hc : t.Closed D) (hk : Keeps D t t')
    (h : t.Reads place m) (hp : t.Within D place) : t'.Reads place m := by
  induction h with
  | @boundary r n s node outer mem socket =>
    obtain ⟨n', hn', ho⟩ := hk.node? hp node
    have hout : n'.outputs = n.outputs := show n'.orphan.outputs = n.orphan.outputs by rw [ho]
    exact .boundary hn' outer (hout ▸ mem) socket
  | @constant r n s x node inner type slot socket default =>
    obtain ⟨n', hn', ho⟩ := hk.node? hp node
    have hout : n'.outputs = n.outputs := show n'.orphan.outputs = n.orphan.outputs by rw [ho]
    have htype : n'.type = n.type := show n'.orphan.type = n.orphan.type by rw [ho]
    exact .constant hn' inner (htype.trans type) (hout ▸ slot) socket default
  | @operation r n s k given node inner type slot socket inputs ih =>
    obtain ⟨n', hn', ho⟩ := hk.node? hp node
    have hin : n'.inputs = n.inputs := show n'.orphan.inputs = n.orphan.inputs by rw [ho]
    have hout : n'.outputs = n.outputs := show n'.orphan.outputs = n.orphan.outputs by rw [ho]
    have htype : n'.type = n.type := show n'.orphan.type = n.orphan.type by rw [ho]
    have hprops : n'.properties = n.properties :=
      show n'.orphan.properties = n.orphan.properties by rw [ho]
    have : t'.Reads (.output r)
        (.operation n'.type n'.properties k (n'.inputs.mapIdx fun i _ => given i)) := by
      refine .operation hn' inner (htype ▸ type) (hout ▸ slot) socket fun i x hx => ?_
      rw [hin] at hx
      exact ih i x hx ⟨r.node, n, hp, node, List.mem_of_getElem? hx⟩
    rwa [htype, hprops, hin] at this
  | @stored s free =>
    obtain ⟨id, n, hid, hn, hmem⟩ := hp
    have hfeed := hk.feeds id n s.id hid hn (List.mem_map_of_mem hmem) fun r hr => by
      rw [free] at hr
      cases hr
    exact .stored (hfeed.trans free)
  | @fed s r source m feed type reads ih =>
    obtain ⟨id, n, hid, hn, hmem⟩ := hp
    have hr : D r.node := hc id n s.id r hid hn (List.mem_map_of_mem hmem) feed
    have hfeed := hk.feeds id n s.id hid hn (List.mem_map_of_mem hmem) fun r' hr' => by
      rw [feed] at hr'
      cases hr'
      exact hr
    exact .fed (hfeed.trans feed) ((outputType?_of_keeps hk hr).trans type) (ih hr)

end Tree

end FormulaGraph
