import FormulaGraph.Proofs.HostEdits
import FormulaGraph.Proofs.Pass.Reuse
import FormulaGraph.Proofs.Semantics.Interpretation

/-!
The sockets of nodes. Whatever a host and passes have done to a tree, its nodes
have the sockets that the catalogue describes; links start at the group input and
end at the group output, so these have nothing on the other side.
-/

namespace FormulaGraph

open Run Relation

/-- A node has sockets of the types that the catalogue describes. Group nodes
show the boundary instead, each on one side alone. -/
structure Node.Equipped (n : Node) : Prop where
  inputs : n.id.isGroup = false → n.inputs.map (·.type) = n.type.inputs.map (·.type)
  outputs : n.id.isGroup = false → n.outputs.map (·.type) = n.type.outputs.map (·.type)
  sink : n.id = .groupOutput → n.outputs = []
  source : n.id = .groupInput → n.inputs = []

namespace Node.Equipped

variable {n m : Node}

theorem of_matches (h : n.Equipped) (hid : m.id = n.id) (htype : m.type = n.type)
    (hm : m.Matches n) : m.Equipped where
  inputs := by
    intro hg
    rw [htype, ← h.inputs (hid ▸ hg)]
    exact Socket.map_bare_congr (fun _ => rfl) hm.inputs
  outputs := by
    intro hg
    rw [htype, ← h.outputs (hid ▸ hg)]
    exact Socket.map_bare_congr (fun _ => rfl) hm.outputs
  sink := by
    intro hg
    have hnone := h.sink (hid ▸ hg)
    have hbare := hm.outputs
    rwa [hnone, List.map_nil, List.map_eq_nil_iff] at hbare
  source := by
    intro hg
    have hnone := h.source (hid ▸ hg)
    have hbare := hm.inputs
    rwa [hnone, List.map_nil, List.map_eq_nil_iff] at hbare

theorem output (h : n.Equipped) (hg : n.id.isGroup = false) {i : Nat} {spec : SocketSpec}
    (hs : n.type.outputs[i]? = some spec) : ∃ s, n.outputs[i]? = some s ∧ s.type = spec.type := by
  have htypes := congrArg (·[i]?) (h.outputs hg)
  simp only [List.getElem?_map, hs, Option.map_some] at htypes
  exact Option.map_eq_some_iff.mp htypes

theorem numeric (h : n.Equipped) (hg : n.id.isGroup = false) {s : Socket} (hs : s ∈ n.inputs) :
    s.type.isNumeric = true := by
  have hmem : s.type ∈ n.type.inputs.map (·.type) := h.inputs hg ▸ List.mem_map_of_mem hs
  obtain ⟨spec, hspec, heq⟩ := List.mem_map.mp hmem
  rw [← heq]
  rcases NodeType.type_of_mem_inputs hspec with ht | ht <;> rw [ht] <;> rfl

end Node.Equipped

namespace Tree

variable {t : Tree}

def Equipped (t : Tree) : Prop := ∀ n ∈ t.nodes, n.Equipped

theorem equipped_empty (editor : Editor) : (empty editor).Equipped := by
  intro n hn
  rcases List.mem_cons.mp hn with rfl | hn
  · exact ⟨fun hg => (by cases hg), fun hg => (by cases hg), fun _ => rfl, fun _ => rfl⟩
  · rw [List.mem_singleton.mp hn]
    exact ⟨fun hg => (by cases hg), fun hg => (by cases hg), fun _ => rfl, fun _ => rfl⟩

namespace Equipped

variable {t t' : Tree} {x : NodeId}
section

variable (h : t.Equipped)
include h

theorem of_nodes (hn : t'.nodes = t.nodes) : t'.Equipped := fun n hm => h n (hn ▸ hm)

theorem modifyNode {f : Node → Node}
    (hf : ∀ n : Node, n.id = x → n.Equipped → (f n).Equipped) : (t.modifyNode x f).Equipped := by
  intro n hn
  obtain ⟨m, hm, rfl⟩ := List.mem_map.mp hn
  split
  · next hid => exact hf m (beq_iff_eq.mp hid) (h m hm)
  · exact h m hm

theorem redecorate {f : Node → Node} (hf : ∀ n : Node, (f n).id = n.id ∧
    (f n).type = n.type ∧ (f n).Matches n) : (t.modifyNode x f).Equipped :=
  h.modifyNode fun n _ hn => hn.of_matches (hf n).1 (hf n).2.1 (hf n).2.2

theorem addNode (hs : 2 ≤ t.supply) (type : NodeType) (setup : NodeSetup) :
    (t.addNode type setup).1.Equipped := by
  intro n hn
  rw [addNode_eq] at hn
  rcases List.mem_append.mp hn with hn | hn
  · exact h n hn
  · rw [List.mem_singleton.mp hn]
    refine ⟨fun _ => ?_, fun _ => ?_, fun hg => ?_, fun hg => ?_⟩
    · unfold addedNode
      cases setup.name <;> exact types_instances _ _ _
    · unfold addedNode
      cases setup.name <;> exact types_instances _ _ _
    · rw [id_addedNode] at hg
      have hsupply : t.supply = 1 := congrArg NodeId.index hg
      omega
    · rw [id_addedNode] at hg
      have hsupply : t.supply = 0 := congrArg NodeId.index hg
      omega

theorem removeNode (id : NodeId) : (t.removeNode id).Equipped := by
  cases hg : id.isGroup with
  | true =>
    rw [Tree.removeNode, if_pos hg]
    exact h
  | false =>
    intro n hn
    rw [removeNode_eq hg] at hn
    obtain ⟨m, hm, rfl⟩ := List.mem_map.mp hn
    exact (h m (List.mem_filter.mp hm).1).of_matches rfl rfl ⟨rfl, rfl⟩

theorem syncGroups (hn : t'.nodes = t.nodes) : t'.syncGroups.Equipped := by
  have group : ∀ {n m : Node}, m.id = n.id → n.id.isGroup = true →
      (n.id = .groupOutput → m.outputs = []) → (n.id = .groupInput → m.inputs = []) →
      m.Equipped := by
    intro n m hid hg hsink hsource
    have hm : m.id.isGroup = true := hid ▸ hg
    refine ⟨fun hc => ?_, fun hc => ?_, fun hc => hsink (hid ▸ hc),
      fun hc => hsource (hid ▸ hc)⟩ <;>
    · rw [hm] at hc
      cases hc
  refine ((h.of_nodes hn).modifyNode fun n hid hn => ?_).modifyNode fun n hid hn => ?_
  · refine group (n := n) rfl (by rw [hid]; rfl) (fun hout => ?_) hn.source
    rw [hid] at hout
    cases hout
  · refine group (n := n) rfl (by rw [hid]; rfl) hn.sink fun hin => ?_
    rw [hid] at hin
    cases hin

theorem setSocketDefault (y : SocketId) (value : Value) :
    (setSocketDefault y value t).2.Equipped := by
  cases hs : t.boundarySocket? y with
  | none =>
    rw [setSocketDefault_of_missing hs]
    exact h
  | some s =>
    rw [setSocketDefault_run hs]
    split
    · exact h
    · exact h.syncGroups rfl

theorem retyped (y : SocketId) (type : SocketType) : (t.retyped y type).Equipped := by
  have hshown : (t.modifySocket y (retype type)).Equipped := h.syncGroups rfl
  exact hshown.of_nodes rfl

theorem withSocket (side : Side) (name : String) (type : SocketType) :
    (t.withSocket side name type).Equipped := h.syncGroups rfl

theorem socketFor (side : Side) (name : String) (type : SocketType) :
    (socketFor side name type t).2.Equipped := by
  rcases socketFor_cases (t := t) side name type with heq | ⟨s, wanted, -, heq⟩ | ⟨-, wanted, heq⟩
  · rwa [heq]
  · rw [heq]
    exact h.retyped s.id wanted
  · rw [heq]
    exact h.withSocket side name wanted

theorem dropSocket (y : SocketId) : (t.dropSocket y).Equipped := by
  cases hs : t.boundarySocket? y with
  | none =>
    rw [dropSocket_of_missing hs]
    exact h
  | some s =>
    rw [dropSocket_of_found hs]
    exact h.syncGroups rfl

theorem keepInputs (names : List String) : (t.keepInputs names).Equipped := by
  have drop : ∀ (ys : List SocketId) (u : Tree), u.Equipped →
      (ys.foldl Tree.dropSocket u).Equipped := by
    intro ys
    induction ys with
    | nil => exact fun _ h => h
    | cons y ys ih => exact fun u h => ih _ (h.dropSocket y)
  exact drop _ t h

theorem reconnect (a b : SocketRef) : (reconnect a b t).2.Equipped := by
  rw [reconnect_run]
  split <;> exact h.of_nodes rfl

theorem touch (touch : Pass.Touch) : (t.modifyNode x touch.apply).Equipped := by
  refine h.redecorate fun n => ?_
  cases touch with
  | settings entries => exact ⟨rfl, rfl, rfl, rfl⟩
  | input slot value =>
    have hm := Node.Matches.setInputDefault n slot value
    exact ⟨rfl, rfl, hm.inputs, hm.outputs⟩
  | output value position =>
    have hm := Node.Matches.setOutputDefault n 0 value
    exact ⟨rfl, rfl, hm.inputs, hm.outputs⟩
  | move position => exact ⟨rfl, rfl, rfl, rfl⟩

theorem besideActive : (Pass.besideActive t).Equipped := by
  unfold Pass.besideActive
  split
  · exact h
  · exact h.redecorate fun _ => ⟨rfl, rfl, rfl, rfl⟩

theorem framedTree (id : NodeId) (label : String) (members : List NodeId) :
    (Pass.framedTree t id label members).Equipped := by
  have enclose : ∀ (roots : List NodeId) (u : Tree), u.Equipped →
      (roots.foldl (fun u root => u.setParent id root) u).Equipped := by
    intro roots
    induction roots with
    | nil => exact fun _ h => h
    | cons root roots ih =>
      exact fun u h => ih _ (h.redecorate fun _ => ⟨rfl, rfl, rfl, rfl⟩)
  exact enclose _ _ (h.redecorate fun _ => ⟨rfl, rfl, rfl, rfl⟩)

end

variable {S : SocketId → Prop} {N : Side → String → Prop}

theorem amend (h : t.Equipped) (hs : 2 ≤ t.supply) (ha : Pass.Amends S N t t') : t'.Equipped := by
  cases ha with
  | activate id => exact h.of_nodes rfl
  | make type setup => exact h.addNode hs type setup
  | remove id => exact h.removeNode id
  | touch id _ touch => exact h.touch touch
  | settle => exact h.besideActive
  | frame id _ _ label members => exact h.framedTree id label members
  | relink source target _ => exact h.reconnect source target
  | unlink x _ => exact h.of_nodes rfl
  | store x _ value => exact h.setSocketDefault x value
  | ask side name _ type => exact h.socketFor side name type
  | keep _ names => exact h.keepInputs names

theorem steps (h : t.Equipped) (hs : 2 ≤ t.supply)
    (hsteps : ReflTransGen (Pass.Amends S N) t t') : t'.Equipped := by
  have run : t'.Equipped ∧ 2 ≤ t'.supply := by
    induction hsteps with
    | refl => exact ⟨h, hs⟩
    | tail _ hstep ih => exact ⟨ih.1.amend ih.2 hstep, Nat.le_trans ih.2 hstep.supply_le⟩
  exact run.1

end Equipped

theorem Hosted.two_le_supply (h : t.Hosted) : 2 ≤ t.supply := h.rooted_start.supply

/-- A host keeps the sockets of nodes too. -/
theorem Equipped.apply (he : t.Equipped) (h : t.Hosted) (e : HostEdit) : (e.apply t).Equipped := by
  cases e with
  | addNode type setup =>
    show (if t.editor.offers type then (t.addNode type setup).1 else t).Equipped
    split
    · exact he.addNode h.two_le_supply type setup
    · exact he
  | removeNode id => exact he.removeNode id
  | setActive id => exact he.of_nodes rfl
  | connect source target =>
    refine he.of_nodes ?_
    show (Tree.connect source target t).2.nodes = _
    rw [connect_run]
    split <;> rfl
  | reconnect source target => exact he.reconnect source target
  | disconnect input => exact he.of_nodes rfl
  | addSocket name side type =>
    show (Tree.addSocket name side type t).2.Equipped
    rcases addSocket_cases (t := t) name side type with heq | ⟨-, wanted, -, heq⟩
    · rwa [heq]
    · rw [heq]
      exact he.withSocket side name wanted
  | removeSocket id => exact he.dropSocket id
  | retypeSocket id type =>
    show (Tree.retypeSocket id type t).2.Equipped
    rcases retypeSocket_cases (t := t) id type with heq | ⟨wanted, -, heq⟩
    · rwa [heq]
    · rw [heq]
      exact he.retyped id wanted
  | setSocketDefault id value => exact he.setSocketDefault id value
  | compile text options =>
    show (Tree.compile text options t).2.Equipped
    rw [compile_run]
    split
    · exact he.steps h.two_le_supply (realize_steps h _ _ _)
    · exact he

/-- A change of a node that leaves it its sockets. Group nodes keep their names
and what they show. -/
structure Restyles (t : Tree) (id : NodeId) (f : Node → Node) : Prop where
  same : ∀ n, (f n).id = n.id ∧ (f n).type = n.type ∧ (f n).Matches n
  group : id.isGroup = true →
    ∀ n, (f n).inputs = n.inputs ∧ (f n).outputs = n.outputs ∧ (f n).name = n.name
  parent : ∀ n frame, (f n).parent = some frame → n.parent = some frame ∨ t.contains frame = true

/-- Trees that a host and passes of single operations have made in turns. The
host may give nodes other names, looks, settings, defaults and parents. -/
inductive Edited : Tree → Prop where
  | empty (editor : Editor) : Edited (empty editor)
  | host {t : Tree} (h : Edited t) (e : HostEdit) : Edited (e.apply t)
  | restyle {t : Tree} (h : Edited t) {id : NodeId} {f : Node → Node} (hf : t.Restyles id f) :
      Edited (t.modifyNode id f)
  | pass {t : Tree} (h : Edited t) (actions : List Pass.Action) :
      Edited (actions.foldl Pass.Action.perform (Pass.start t)).tree

theorem Edited.hosted_equipped (h : t.Edited) : t.Hosted ∧ t.Equipped := by
  induction h with
  | empty editor => exact ⟨hosted_empty editor, equipped_empty editor⟩
  | host _ e ih => exact ⟨ih.1.apply e, ih.2.apply ih.1 e⟩
  | restyle _ hf ih =>
    exact ⟨ih.1.modifyNode (fun n => (hf.same n).1) (fun n => (hf.same n).2.2) hf.group hf.parent,
      ih.2.redecorate hf.same⟩
  | @pass t _ actions ih =>
    have hsteps : ReflTransGen Amends t (actions.foldl Pass.Action.perform (Pass.start t)).tree :=
      .head (.activate (some .groupInput))
        (Pass.perform_all_makes (fun _ => trivial) (fun _ _ => trivial) ih.1.rooted_start actions)
    exact ⟨ih.1.steps hsteps, ih.2.steps ih.1.two_le_supply hsteps⟩

theorem Edited.hosted (h : t.Edited) : t.Hosted := h.hosted_equipped.1

theorem Edited.equipped (h : t.Edited) : t.Equipped := h.hosted_equipped.2

end Tree

end FormulaGraph
