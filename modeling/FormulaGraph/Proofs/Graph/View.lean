import FormulaGraph.Graph.Boundary
import Mathlib.Data.List.Nodup

/-!
What edits of a tree do to two views of it: the node of an identity, and the
output that an input reads from. Proofs about passes use these views and not
the lists behind them.
-/

namespace FormulaGraph.Tree

variable {t : Tree} {id x : NodeId} {n : Node}

theorem id_of_node? (h : t.node? id = some n) : n.id = id := by
  have := List.find?_some h
  simpa using this

theorem mem_of_node? (h : t.node? id = some n) : n ∈ t.nodes := List.mem_of_find?_eq_some h

theorem node?_isSome_of_mem (h : n ∈ t.nodes) : ∃ m, t.node? n.id = some m := by
  rw [← Option.isSome_iff_exists, node?, List.find?_isSome]
  exact ⟨n, h, by simp⟩

theorem node?_of_mem (hd : (t.nodes.map (·.id)).Nodup) (h : n ∈ t.nodes) :
    t.node? n.id = some n := by
  obtain ⟨m, hm⟩ := node?_isSome_of_mem h
  have hid := id_of_node? hm
  rw [hm, List.inj_on_of_nodup_map hd (mem_of_node? hm) h hid]

theorem contains_iff : t.contains id = true ↔ ∃ n, t.node? id = some n := by
  rw [← Option.isSome_iff_exists, node?, List.find?_isSome, contains, List.any_eq_true]

theorem find?_map_of_congr {α : Type} {p : α → Bool} {f : α → α} (h : ∀ a, p (f a) = p a)
    (l : List α) : (l.map f).find? p = (l.find? p).map f := by
  induction l with
  | nil => rfl
  | cons a l ih =>
    simp only [List.map_cons, List.find?_cons, h]
    cases p a <;> simp [ih]

theorem find?_filter_of_unique {α : Type} {p q : α → Bool} {l : List α}
    (h : l.Pairwise fun a b => ¬(p a = true ∧ p b = true)) :
    (l.filter q).find? p = (l.find? p).filter q := by
  induction l with
  | nil => rfl
  | cons a l ih =>
    rw [List.pairwise_cons] at h
    have ih := ih h.2
    cases hp : p a with
    | false =>
      cases hq : q a <;> simp [hp, hq, ih]
    | true =>
      have hl : ∀ b ∈ l, p b = false := by
        intro b hb
        cases hb' : p b
        · rfl
        · exact absurd ⟨hp, hb'⟩ (h.1 b hb)
      have hn : (l.filter q).find? p = none := by
        rw [List.find?_eq_none]
        intro b hb
        simp [hl b (List.mem_filter.mp hb).1]
      cases hq : q a <;> simp [hp, hq, hn, Option.filter]

section Nodes

variable {f : Node → Node}

theorem node?_modifyNode (hf : ∀ n, (f n).id = n.id) :
    (t.modifyNode id f).node? x = (t.node? x).map fun n => if x = id then f n else n := by
  unfold node? modifyNode
  dsimp only
  rw [find?_map_of_congr]
  · cases h : t.nodes.find? (·.id == x) with
    | none => rfl
    | some n =>
      have : n.id = x := by simpa using List.find?_some h
      simp [this]
  · intro n
    split <;> simp [hf]

theorem map_id_modifyNode (hf : ∀ n, (f n).id = n.id) :
    (t.modifyNode id f).nodes.map (·.id) = t.nodes.map (·.id) := by
  unfold modifyNode
  simp only [List.map_map]
  apply List.map_congr_left
  intro n _
  simp only [Function.comp_apply]
  split <;> simp [hf]

theorem contains_iff_mem : t.contains id = true ↔ id ∈ t.nodes.map (·.id) := by
  simp [contains, List.mem_map]

theorem contains_congr {t' : Tree} (h : t'.nodes.map (·.id) = t.nodes.map (·.id)) :
    t'.contains id = t.contains id := by
  rw [Bool.eq_iff_iff, contains_iff_mem, contains_iff_mem, h]

theorem contains_modifyNode {x : NodeId} (hid : ∀ n, (f n).id = n.id) :
    (t.modifyNode id f).contains x = t.contains x := contains_congr (map_id_modifyNode hid)

theorem modifyNode_eq_self (h : ∀ n ∈ t.nodes, n.id = id → f n = n) : t.modifyNode id f = t := by
  unfold modifyNode
  have : t.nodes.map (fun n => if n.id == id then f n else n) = t.nodes := by
    refine (List.map_congr_left fun n hn => ?_).trans (List.map_id t.nodes)
    by_cases hid : n.id = id
    · simp [hid, h n hn hid]
    · simp [hid]
  rw [this]

def addedNode (t : Tree) (type : NodeType) (setup : NodeSetup) : Node :=
  let node := type.instantiate t.supply
  { (setup.name.elim node node.rename).setProperties setup.properties with
    position := setup.position }

theorem addNode_eq (type : NodeType) (setup : NodeSetup) :
    t.addNode type setup =
      ({ t with nodes := t.nodes ++ [t.addedNode type setup], supply := t.supply + type.idCount },
        ⟨t.supply⟩) := by
  unfold addNode addedNode
  cases setup.name <;> rfl

theorem id_addedNode (type : NodeType) (setup : NodeSetup) :
    (t.addedNode type setup).id = ⟨t.supply⟩ := by
  unfold addedNode
  cases setup.name <;> rfl

theorem node?_addNode {type : NodeType} {setup : NodeSetup}
    (hfresh : ∀ n ∈ t.nodes, n.id.index < t.supply) :
    (t.addNode type setup).1.node? x =
      if x = ⟨t.supply⟩ then some (t.addedNode type setup) else t.node? x := by
  rw [addNode_eq]
  unfold node?
  dsimp only
  rw [List.find?_append]
  have hid := t.id_addedNode type setup
  split
  · next hx =>
    subst hx
    have : t.nodes.find? (·.id == ⟨t.supply⟩) = none := by
      rw [List.find?_eq_none]
      intro n hn
      have := hfresh n hn
      simp only [beq_iff_eq]
      intro h
      rw [h] at this
      exact Nat.lt_irrefl _ this
    simp [this, hid]
  · next hx =>
    have : ([t.addedNode type setup].find? (·.id == x)) = none := by
      simp [hid, Ne.symm hx]
    rw [this]
    simp

def leaving (id : NodeId) (n : Node) : Node :=
  if n.parent == some id then { n with parent := none } else n

@[simp] theorem id_leaving : (leaving id n).id = n.id := by
  unfold leaving
  split <;> rfl

theorem removeNode_eq (hg : x.isGroup = false) : t.removeNode x =
    { t with
      links := t.links.filter (!·.touchesNode x)
      nodes := (t.nodes.filter (·.id != x)).map fun n =>
        { n with parent := n.parent.filter (· != x) }
      active := t.active.filter (· != x) } := by
  unfold removeNode
  rw [if_neg (by simp [hg])]
  congr 2
  funext n
  rcases n with ⟨_, _, _, _, _, _, _, _, _, _ | f, _⟩
  · rfl
  · by_cases hf : f = x <;> simp [hf, Option.filter]

theorem node?_removeNode (hg : id.isGroup = false) :
    (t.removeNode id).node? x = if x = id then none else (t.node? x).map (leaving id) := by
  unfold removeNode
  rw [if_neg (by simp [hg])]
  unfold node?
  dsimp only
  rw [show (fun n : Node => if n.parent == some id then { n with parent := none } else n) =
      leaving id from rfl, find?_map_of_congr fun n => by rw [id_leaving]]
  split
  · next hx =>
    subst hx
    rw [List.find?_eq_none.mpr]
    · rfl
    · intro n hn
      simpa using (List.mem_filter.mp hn).2
  · next hx =>
    rw [List.find?_filter]
    congr 2
    funext n
    by_cases hn : n.id = x
    · simp [hn, hx]
    · simp [hn]

end Nodes

section Links

def sourceOf? (t : Tree) (input : SocketId) : Option SocketRef :=
  (t.feedOf? input).map (·.source)

def Single (t : Tree) : Prop := (t.links.map (·.target.socket)).Nodup

variable {a b : SocketRef} {s y : SocketId} {l : Link}

theorem target_of_feedOf? (h : t.feedOf? y = some l) : l.target.socket = y := by
  have := List.find?_some h
  simpa using this

theorem mem_of_feedOf? (h : t.feedOf? y = some l) : l ∈ t.links := List.mem_of_find?_eq_some h

theorem feedOf?_of_mem (hs : t.Single) (h : l ∈ t.links) : t.feedOf? l.target.socket = some l := by
  have hl : (t.feedOf? l.target.socket).isSome := by
    rw [feedOf?, List.find?_isSome]
    exact ⟨l, h, by simp⟩
  obtain ⟨m, hm⟩ := Option.isSome_iff_exists.mp hl
  rw [hm, List.inj_on_of_nodup_map hs (mem_of_feedOf? hm) h (target_of_feedOf? hm)]

theorem feedOf?_disconnect : (t.disconnect s).feedOf? y = if y = s then none else t.feedOf? y := by
  unfold disconnect feedOf?
  dsimp only
  rw [List.find?_filter]
  split
  · next h =>
    subst h
    rw [List.find?_eq_none]
    intro l _
    by_cases hl : l.target.socket = y <;> simp [hl]
  · next h =>
    congr 1
    funext l
    by_cases hl : l.target.socket = y
    · simp [hl, h]
    · simp [hl]

theorem feedOf?_addLink :
    (t.addLink a b).feedOf? y =
      (t.feedOf? y).or (if b.socket = y then some ⟨⟨t.supply⟩, a, b⟩ else none) := by
  unfold addLink feedOf?
  dsimp only
  rw [List.find?_append]
  congr 1
  by_cases h : b.socket = y <;> simp [h]

theorem feedOf?_filter (hs : t.Single) (q : Link → Bool) :
    ({ t with links := t.links.filter q } : Tree).feedOf? y = (t.feedOf? y).filter q := by
  unfold feedOf?
  dsimp only
  apply find?_filter_of_unique
  refine (List.pairwise_map.mp hs).imp ?_
  intro l m hne
  simp only [beq_iff_eq, not_and]
  intro hl hm
  exact hne (hl.trans hm.symm)

theorem feedOf?_removeNode (hs : t.Single) (hg : id.isGroup = false) :
    (t.removeNode id).feedOf? y = (t.feedOf? y).filter (!·.touchesNode id) := by
  have h : (t.removeNode id).feedOf? y =
      ({ t with links := t.links.filter (!·.touchesNode id) } : Tree).feedOf? y := by
    unfold removeNode
    rw [if_neg (by simp [hg])]
    rfl
  rw [h, feedOf?_filter hs]

theorem disconnect_eq_self (h : t.feedOf? s = none) : t.disconnect s = t := by
  unfold disconnect
  have : t.links.filter (·.target.socket != s) = t.links := by
    rw [List.filter_eq_self]
    intro l hl
    have := List.find?_eq_none.mp h l hl
    simpa using this
  rw [this]

theorem single_of_sublist {t' : Tree} (hs : t.Single) (h : t'.links.Sublist t.links) : t'.Single :=
  List.Nodup.sublist (h.map _) hs

theorem single_addLink (hs : t.Single) (h : t.feedOf? b.socket = none) :
    (t.addLink a b).Single := by
  unfold Single addLink
  rw [List.map_append, List.nodup_append]
  refine ⟨hs, by simp, ?_⟩
  intro x hx y hy
  obtain ⟨l, hl, rfl⟩ := List.mem_map.mp hx
  have := List.find?_eq_none.mp h l hl
  simp only [List.map_cons, List.map_nil, List.mem_singleton] at hy
  rw [hy]
  simpa using this

end Links

end FormulaGraph.Tree
