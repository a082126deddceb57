import FormulaGraph.Proofs.Pass.Pairing

/-!
What a pass does to a tree, one edit at a time. Every step of a pass, whether it
succeeds or not, leaves a tree that a few kinds of edits lead to. What those
edits keep is kept by every pass.
-/

namespace FormulaGraph

open Run Relation

/-- A node under its old name in its old frame, of the same type. Only a group
node may have other sockets. -/
structure Node.Redressed (n m : Node) : Prop where
  outline : m.outline = n.outline
  type : m.type = n.type
  sockets : n.id.isGroup = false → m.Alike n

theorem Node.Redressed.trans {n m k : Node} (h : n.Redressed m) (h' : m.Redressed k) :
    n.Redressed k where
  outline := h'.outline.trans h.outline
  type := h'.type.trans h.type
  sockets := by
    intro hg
    have hid : m.id = n.id := congrArg Outline.id h.outline
    exact (h'.sockets (hid ▸ hg)).trans (h.sockets hg)

namespace Tree

variable {t t' t'' : Tree} {x : NodeId}

/-- A boundary socket is one that the tree has, by what it is known for, or it
is newer than the tree. -/
def Origin (t : Tree) (s : Socket) : Prop :=
  t.supply ≤ s.id.index ∨ ∃ r ∈ t.boundary, r.id = s.id ∧ r.side = s.side ∧ r.name = s.name

theorem origin_of_mem {s : Socket} (h : s ∈ t.boundary) : t.Origin s := .inr ⟨s, h, rfl, rfl, rfl⟩

theorem Origin.trans {s : Socket} (hb : ∀ r ∈ t'.boundary, t.Origin r) (hs : t.supply ≤ t'.supply)
    (h : t'.Origin s) : t.Origin s := by
  rcases h with h | ⟨r, hr, hid, hside, hname⟩
  · exact .inl (Nat.le_trans hs h)
  · rcases hb r hr with h | ⟨r', hr', hid', hside', hname'⟩
    · exact .inl (hid ▸ h)
    · exact .inr ⟨r', hr', hid'.trans hid, hside'.trans hside, hname'.trans hname⟩

/-- The same nodes under the same names in the same frames. They may differ in
how they look, and group nodes in their sockets. -/
structure Redresses (t t' : Tree) : Prop where
  nodes : ∃ f : Node → Node, (∀ n : Node, n.Redressed (f n)) ∧ t'.nodes = t.nodes.map f
  boundary : ∀ s ∈ t'.boundary, t.Origin s
  supply : t.supply ≤ t'.supply

namespace Redresses

theorem of_nodes (hn : t'.nodes = t.nodes) (hb : ∀ s ∈ t'.boundary, t.Origin s)
    (hs : t.supply ≤ t'.supply) : Redresses t t' :=
  ⟨⟨id, fun _ => ⟨rfl, rfl, fun _ => .refl _⟩, by rw [hn, List.map_id]⟩, hb, hs⟩

theorem of_parts (hn : t'.nodes = t.nodes) (hb : t'.boundary = t.boundary)
    (hs : t.supply ≤ t'.supply) : Redresses t t' :=
  of_nodes hn (fun _ h => origin_of_mem (hb ▸ h)) hs

theorem refl (t : Tree) : Redresses t t := of_parts rfl rfl (Nat.le_refl _)

theorem trans (h : Redresses t t') (h' : Redresses t' t'') : Redresses t t'' := by
  obtain ⟨⟨f, hf, hn⟩, hb, hs⟩ := h
  obtain ⟨⟨g, hg, hn'⟩, hb', hs'⟩ := h'
  refine ⟨⟨g ∘ f, fun n => (hf n).trans (hg _), by rw [hn', hn, List.map_map]⟩,
    fun s hs'' => .trans hb hs (hb' s hs''), Nat.le_trans hs hs'⟩

theorem modifyNode {f : Node → Node} (hf : ∀ n : Node, n.id = x → n.Redressed (f n)) :
    Redresses t (t.modifyNode x f) := by
  refine ⟨⟨fun n => if n.id == x then f n else n, fun n => ?_, rfl⟩, fun _ => origin_of_mem,
    Nat.le_refl _⟩
  dsimp only
  split
  · next hid => exact hf n (beq_iff_eq.mp hid)
  · exact ⟨rfl, rfl, fun _ => .refl _⟩

theorem syncGroups (t : Tree) : Redresses t t.syncGroups := by
  have hinput : Redresses t (t.modifyNode .groupInput fun n =>
      { n with outputs := t.shownInside .input }) := by
    refine modifyNode fun n hid => ⟨rfl, rfl, fun hg => ?_⟩
    rw [hid] at hg
    cases hg
  refine hinput.trans (modifyNode fun n hid => ⟨rfl, rfl, fun hg => ?_⟩)
  rw [hid] at hg
  cases hg

theorem outline (h : Redresses t t') : t'.outline = t.outline := by
  obtain ⟨f, hf, hn⟩ := h.nodes
  rw [Tree.outline, hn, List.map_map]
  exact List.map_congr_left fun n _ => (hf n).outline

theorem type? (h : Redresses t t') (x : NodeId) :
    (t'.node? x).map (·.type) = (t.node? x).map (·.type) := by
  obtain ⟨f, hf, hn⟩ := h.nodes
  have hid : ∀ n, (f n).id = n.id := fun n => congrArg Outline.id (hf n).outline
  rw [node?, hn, find?_map_of_congr fun n => by rw [hid n], Option.map_map]
  exact Option.map_congr fun n _ => (hf n).type

end Redresses

section Boundary

theorem redresses_withSocket (side : Side) (name : String) (type : SocketType) :
    t.Redresses (t.withSocket side name type) := by
  have hlisted : t.Redresses { t with
      boundary := t.boundary ++ [⟨⟨t.supply⟩, name, side, type, none, false⟩]
      supply := t.supply + 1 } := by
    refine .of_nodes rfl (fun s hs => ?_) (Nat.le_succ _)
    rcases List.mem_append.mp hs with hs | hs
    · exact origin_of_mem hs
    · rw [List.mem_singleton.mp hs]
      exact .inl (Nat.le_refl _)
  exact hlisted.trans (.syncGroups _)

theorem redresses_modifySocket {f : Socket → Socket}
    (hf : ∀ s, (f s).id = s.id ∧ (f s).side = s.side ∧ (f s).name = s.name) (y : SocketId) :
    t.Redresses (t.modifySocket y f) := by
  have hlisted : t.Redresses { t with
      boundary := t.boundary.map fun s => if s.id == y then f s else s } := by
    refine .of_nodes rfl (fun s hs => ?_) (Nat.le_refl _)
    obtain ⟨r, hr, rfl⟩ := List.mem_map.mp hs
    refine .inr ⟨r, hr, ?_⟩
    split
    · exact ⟨(hf r).1.symm, (hf r).2.1.symm, (hf r).2.2.symm⟩
    · exact ⟨rfl, rfl, rfl⟩
  exact hlisted.trans (.syncGroups _)

theorem redresses_setSocketDefault (y : SocketId) (value : Value) :
    t.Redresses (setSocketDefault y value t).2 := by
  cases hs : t.boundarySocket? y with
  | none =>
    rw [setSocketDefault_of_missing hs]
    exact .refl t
  | some s =>
    rw [setSocketDefault_run hs]
    split
    · exact .refl t
    · exact redresses_modifySocket (f := redefault _) (fun _ => ⟨rfl, rfl, rfl⟩) y

theorem redresses_socketFor (side : Side) (name : String) (type : SocketType) :
    t.Redresses (socketFor side name type t).2 := by
  rcases socketFor_cases (t := t) side name type with h | ⟨s, wanted, -, h⟩ | ⟨-, wanted, h⟩
  · rw [h]
    exact .refl t
  · rw [h]
    have hretype : t.Redresses (t.modifySocket s.id (retype wanted)) :=
      redresses_modifySocket (f := retype wanted) (fun _ => ⟨rfl, rfl, rfl⟩) s.id
    exact hretype.trans (.of_parts rfl rfl (Nat.le_refl _))
  · rw [h]
    exact redresses_withSocket side name wanted

theorem redresses_dropSocket (y : SocketId) : t.Redresses (t.dropSocket y) := by
  cases hs : t.boundarySocket? y with
  | none =>
    rw [dropSocket_of_missing hs]
    exact .refl t
  | some s =>
    rw [dropSocket_of_found hs]
    have hlisted : t.Redresses { t with
        boundary := t.boundary.filter (·.id != y)
        links := t.links.filter (!·.touchesSocket y) } :=
      .of_nodes rfl (fun s hs => origin_of_mem (List.mem_filter.mp hs).1) (Nat.le_refl _)
    exact hlisted.trans (.syncGroups _)

theorem redresses_keepInputs (names : List String) : t.Redresses (t.keepInputs names) := by
  have drop : ∀ (ys : List SocketId) (u : Tree), u.Redresses (ys.foldl dropSocket u) := by
    intro ys
    induction ys with
    | nil => exact fun u => .refl u
    | cons y ys ih => exact fun u => (redresses_dropSocket y).trans (ih _)
  exact drop _ t

end Boundary

theorem redresses_reconnect (a b : SocketRef) : t.Redresses (reconnect a b t).2 := by
  rw [reconnect_run]
  split
  · exact .of_parts rfl rfl (Nat.le_refl _)
  · exact .of_parts rfl rfl (Nat.le_succ _)

end Tree

/-- Whether a fault is about what was typed: its syntax, its names or the
number of arguments of its calls. -/
def Fault.isTextual (fault : Fault) : Bool :=
  match fault.faultClass with
  | .syntactic | .name | .arity => true
  | _ => false

theorem Fault.isTextual_link (fault : LinkFault) : (Fault.link fault).isTextual = false := by
  cases fault <;> rfl

theorem Fault.isTextual_boundary (fault : BoundaryFault) :
    (Fault.boundary fault).isTextual = false := by
  cases fault <;> rfl

namespace Pass

def Feedable (t : Tree) (x : SocketId) : Prop :=
  ∃ id n s, t.node? id = some n ∧ id.isGroup = false ∧ s ∈ n.inputs ∧ s.id = x

/-- The edits that passes are made of. Sockets of the boundary are linked and
given defaults as far as `S` allows, and are asked for by the names that `N`
allows. -/
inductive Amends (S : SocketId → Prop) (N : Side → String → Prop) (t : Tree) : Tree → Prop
  | activate (id : Option NodeId) : Amends S N t (t.setActive id)
  | make (type : NodeType) (setup : NodeSetup) : Amends S N t (t.addNode type setup).1
  | remove (id : NodeId) : Amends S N t (t.removeNode id)
  | touch (id : NodeId) (hg : id.isGroup = false) (touch : Touch) :
      Amends S N t (t.modifyNode id touch.apply)
  | settle : Amends S N t (besideActive t)
  | frame (id : NodeId) (hg : id.isGroup = false) (hc : t.contains id = true) (label : String)
      (members : List NodeId) : Amends S N t (framedTree t id label members)
  | relink (source target : SocketRef) (h : S target.socket ∨ Feedable t target.socket) :
      Amends S N t (Tree.reconnect source target t).2
  | unlink (x : SocketId) (h : S x ∨ Feedable t x) : Amends S N t (t.disconnect x)
  | store (x : SocketId) (h : S x) (value : Value) :
      Amends S N t (Tree.setSocketDefault x value t).2
  | ask (side : Side) (name : String) (h : N side name) (type : SocketType) :
      Amends S N t (Tree.socketFor side name type t).2
  | keep (h : ∀ name, N .input name) (names : List String) : Amends S N t (t.keepInputs names)

variable {S : SocketId → Prop} {N : Side → String → Prop} {t t' : Tree}

theorem redressed_touch (touch : Touch) (n : Node) : n.Redressed (touch.apply n) := by
  refine ⟨?_, ?_, fun _ => alike_touch touch n⟩ <;> cases touch <;> rfl

theorem redresses_besideActive : t.Redresses (besideActive t) := by
  unfold besideActive
  split
  · exact .refl t
  · exact .modifyNode fun n _ => ⟨rfl, rfl, fun _ => ⟨rfl, rfl, rfl, rfl⟩⟩

/-- Nodes only come and go by being made, removed or framed. -/
theorem Amends.cases (h : Amends S N t t') : t.Redresses t' ∨
    (∃ type setup, t' = (t.addNode type setup).1) ∨ (∃ id, t' = t.removeNode id) ∨
    ∃ id label members, t.contains id = true ∧ t' = framedTree t id label members := by
  cases h with
  | activate id => exact .inl (.of_parts rfl rfl (Nat.le_refl _))
  | make type setup => exact .inr (.inl ⟨type, setup, rfl⟩)
  | remove id => exact .inr (.inr (.inl ⟨id, rfl⟩))
  | touch id _ touch => exact .inl (.modifyNode fun n _ => redressed_touch touch n)
  | settle => exact .inl redresses_besideActive
  | frame id _ hc label members => exact .inr (.inr (.inr ⟨id, label, members, hc, rfl⟩))
  | relink source target _ => exact .inl (Tree.redresses_reconnect source target)
  | unlink x _ => exact .inl (.of_parts rfl rfl (Nat.le_refl _))
  | store x _ value => exact .inl (Tree.redresses_setSocketDefault x value)
  | ask side name _ type => exact .inl (Tree.redresses_socketFor side name type)
  | keep _ names => exact .inl (Tree.redresses_keepInputs names)

theorem Amends.supply_le (h : Amends S N t t') : t.supply ≤ t'.supply := by
  rcases h.cases with h | ⟨type, setup, rfl⟩ | ⟨id, rfl⟩ | ⟨id, label, members, -, rfl⟩
  · exact h.supply
  · rw [Tree.addNode_eq]
    exact Nat.le_add_right _ _
  · unfold Tree.removeNode
    split <;> exact Nat.le_refl _
  · have hflat := congrArg Tree.supply (flat_framedTree t id label members)
    exact Nat.le_of_eq hflat.symm

/-- Group nodes keep their types. -/
theorem Amends.type_of_group (h : Amends S N t t') (hs : 2 ≤ t.supply) {x : NodeId}
    (hg : x.isGroup = true) {n' : Node} (hn' : t'.node? x = some n') :
    ∃ n, t.node? x = some n ∧ n.type = n'.type := by
  rcases h.cases with h | ⟨type, setup, rfl⟩ | ⟨id, rfl⟩ | ⟨id, label, members, -, rfl⟩
  · have htype := h.type? x
    rw [hn'] at htype
    exact Option.map_eq_some_iff.mp htype.symm
  · rw [Tree.addNode_eq, Tree.node?, List.find?_append, Option.or_eq_some_iff] at hn'
    rcases hn' with hn' | ⟨-, hn'⟩
    · exact ⟨n', hn', rfl⟩
    · -- the new node takes its identity from the supply
      have hid := List.find?_some hn'
      rw [List.mem_singleton.mp (List.mem_of_find?_eq_some hn'), Tree.id_addedNode] at hid
      rw [← beq_iff_eq.mp hid, NodeId.not_isGroup_of_le hs] at hg
      cases hg
  · cases hid : id.isGroup with
    | true =>
      rw [Tree.removeNode, if_pos hid] at hn'
      exact ⟨n', hn', rfl⟩
    | false =>
      rw [Tree.node?_removeNode hid] at hn'
      split at hn'
      · cases hn'
      · obtain ⟨n, hn, rfl⟩ := Option.map_eq_some_iff.mp hn'
        refine ⟨n, hn, ?_⟩
        unfold Tree.leaving
        split <;> rfl
  · obtain ⟨n, hn, ho⟩ := Tree.node?_of_bare?
      (Tree.bare?_of_flat (flat_framedTree t id label members) x).symm hn'
    rw [placed, Tree.node?_modifyNode (by exact fun _ => rfl)] at hn
    obtain ⟨m, hm, rfl⟩ := Option.map_eq_some_iff.mp hn
    refine ⟨m, hm, ?_⟩
    have htype := congrArg Node.type ho
    split at htype <;> exact htype

/-- Tags find no group nodes, or at least none of a type that passes build. -/
structure Rooted (p : Pass) : Prop where
  supply : 2 ≤ p.tree.supply
  index : ∀ e ∈ p.index, e.2.isGroup = true → ∀ n, p.tree.node? e.2 = some n →
    n.type.isBuilt = false

variable {p p' : Pass}

theorem Rooted.amend (hp : p.Rooted) (h : Amends S N p.tree t') :
    ({ p with tree := t' } : Pass).Rooted where
  supply := Nat.le_trans hp.supply h.supply_le
  index := by
    intro e he hg n' hn'
    obtain ⟨n, hn, htype⟩ := h.type_of_group hp.supply hg hn'
    exact htype ▸ hp.index e he hg n hn

theorem Rooted.steps (hp : p.Rooted) (h : ReflTransGen (Amends S N) p.tree t') :
    ({ p with tree := t' } : Pass).Rooted := by
  induction h with
  | refl => exact hp
  | tail _ hstep ih => exact ih.amend hstep

theorem Rooted.unindex (hp : p.Rooted) (tag : String) :
    ({ p with index := p.index.filter (·.1 != tag) } : Pass).Rooted :=
  ⟨hp.supply, fun e he => hp.index e (List.mem_filter.mp he).1⟩

/-- What a computation does at a pass, whatever it ends with. It reports no fault
of the text but those that `X` allows. It makes the given edits, if `C` holds and
tags find no group nodes. -/
structure MakesAt (C : Prop) (X : Fault → Prop) (S : SocketId → Prop) (N : Side → String → Prop)
    {α : Type} (p : Pass) (m : PassM α) : Prop where
  fault : ∀ fault p', m p = (.error fault, p') → fault.isTextual = false ∨ X fault
  edits : C → p.Rooted → (m p).2.Rooted ∧ ReflTransGen (Amends S N) p.tree (m p).2.tree

abbrev Makes (C : Prop) (X : Fault → Prop) (S : SocketId → Prop) (N : Side → String → Prop)
    {α : Type} (m : PassM α) : Prop := ∀ p, MakesAt C X S N p m

abbrev Edits (S : SocketId → Prop) (N : Side → String → Prop) {α : Type} (m : PassM α) : Prop :=
  Makes True (fun _ => True) S N m

variable {C : Prop} {X : Fault → Prop}

namespace MakesAt

variable {α β : Type} {m : PassM α} {f : α → PassM β}

theorem succeeds {a : α} (h : m p = (.ok a, p'))
    (he : C → p.Rooted → p'.Rooted ∧ ReflTransGen (Amends S N) p.tree p'.tree) :
    MakesAt C X S N p m := by
  refine ⟨fun fault q hf => ?_, fun hc hp => ?_⟩
  · cases h.symm.trans hf
  · rw [h]
    exact he hc hp

theorem idle {a : α} (h : m p = (.ok a, p)) : MakesAt C X S N p m :=
  .succeeds h fun _ hp => ⟨hp, .refl⟩

theorem refused {fault : Fault} (h : m p = (.error fault, p))
    (hx : fault.isTextual = false ∨ X fault) : MakesAt C X S N p m := by
  refine ⟨fun fault' p' hf => ?_, fun _ hp => ?_⟩
  · cases h.symm.trans hf
    exact hx
  · rw [h]
    exact ⟨hp, .refl⟩

theorem continued {p₁ : Pass} {m' : PassM α} (hm : MakesAt C X S N p₁ m') (h : m p = m' p₁)
    (hp₁ : C → p.Rooted → p₁.Rooted ∧ ReflTransGen (Amends S N) p.tree p₁.tree) :
    MakesAt C X S N p m := by
  refine ⟨fun fault p' hf => hm.fault fault p' (h ▸ hf), fun hc hp => ?_⟩
  obtain ⟨hrooted, hsteps⟩ := hp₁ hc hp
  rw [h]
  exact ⟨(hm.edits hc hrooted).1, hsteps.trans (hm.edits hc hrooted).2⟩

theorem bind (hm : MakesAt C X S N p m)
    (hf : ∀ a p', m p = (.ok a, p') → MakesAt C X S N p' (f a)) : MakesAt C X S N p (m >>= f) := by
  rcases h : m p with ⟨fault | a, p'⟩
  · refine ⟨fun fault' p'' hb => ?_, fun hc hp => ?_⟩
    · rw [bind_of_error h] at hb
      cases hb
      exact hm.fault _ _ h
    · rw [bind_of_error h]
      have hedits := hm.edits hc hp
      rwa [h] at hedits
  · refine (hf a p' h).continued (bind_of_ok h) fun hc hp => ?_
    have hedits := hm.edits hc hp
    rwa [h] at hedits

theorem edit {ε : Type} {toFault : ε → Fault} {e : Edit ε α}
    (hf : ∀ fault, (toFault fault).isTextual = false) (he : C → Amends S N p.tree (e p.tree).2) :
    MakesAt C X S N p (edit toFault e) := by
  refine ⟨fun fault p' h => ?_, fun hc hp => ⟨hp.amend (he hc), .single (he hc)⟩⟩
  rcases hr : e p.tree with ⟨r | r, t⟩ <;> simp only [Pass.edit, hr] at h <;> cases h
  exact .inl (hf r)

end MakesAt

namespace Makes

variable {α β ε : Type} {m : PassM α} {f : α → PassM β}

theorem pure (a : α) : Makes C X S N (pure a : PassM α) := fun _ => .idle rfl

theorem throw {fault : Fault} (h : fault.isTextual = false ∨ X fault) :
    Makes C X S N (throw fault : PassM α) := fun _ => .refused rfl h

theorem get : Makes C X S N (get : PassM Pass) := fun _ => .idle rfl

theorem of_ok {a : α} (hm : Edits S N m) (hp : p.Rooted) (h : m p = (.ok a, p')) :
    p'.Rooted ∧ ReflTransGen (Amends S N) p.tree p'.tree := by
  have hedits := (hm p).edits trivial hp
  rwa [h] at hedits

theorem bind (hm : Makes C X S N m) (hf : ∀ a, Makes C X S N (f a)) : Makes C X S N (m >>= f) :=
  fun p => (hm p).bind fun a p' _ => hf a p'

theorem modifyTree_of_steps {g : Tree → Tree} (hg : ∀ t, C → ReflTransGen (Amends S N) t (g t)) :
    Makes C X S N (modifyTree g) :=
  fun p => .succeeds rfl fun hc hp => ⟨hp.steps (hg p.tree hc), hg p.tree hc⟩

theorem modifyTree {g : Tree → Tree} (hg : ∀ t, C → Amends S N t (g t)) :
    Makes C X S N (modifyTree g) := modifyTree_of_steps fun t hc => .single (hg t hc)

theorem edit {toFault : ε → Fault} {e : Edit ε α} (hf : ∀ fault, (toFault fault).isTextual = false)
    (he : ∀ t, C → Amends S N t (e t).2) : Makes C X S N (edit toFault e) :=
  fun p => .edit hf (he p.tree)

theorem modify {g : Pass → Pass} (ht : ∀ p, (g p).tree = p.tree) (hi : ∀ p, (g p).index = p.index) :
    Makes C X S N (modify g) := by
  refine fun p => .succeeds (modify_run g p) fun _ hp => ⟨⟨?_, ?_⟩, ?_⟩
  · exact (ht p).symm ▸ hp.supply
  · show ∀ e ∈ (g p).index, e.2.isGroup = true → ∀ n, (g p).tree.node? e.2 = some n → _
    rw [ht p, hi p]
    exact hp.index
  · show ReflTransGen _ p.tree (g p).tree
    rw [ht p]

end Makes

theorem makes_getTree : Makes C X S N getTree := .bind .get fun _ => .pure _

theorem makes_tag (op : String) (args : List Operand) : Makes C X S N (tag op args) :=
  fun _ => .succeeds rfl fun _ hp => ⟨⟨hp.supply, hp.index⟩, .refl⟩

theorem makes_newHandle (kind : Kind) (socket : SocketRef) (boundary : Option String) :
    Makes C X S N (newHandle kind socket boundary) :=
  fun _ => .succeeds rfl fun _ hp => ⟨⟨hp.supply, hp.index⟩, .refl⟩

theorem makes_result? (tag : String) : Makes C X S N (result? tag) := .bind .get fun _ => .pure _

theorem makes_keepResult (tag : String) (handles : List Handle) :
    Makes C X S N (keepResult tag handles) := .modify (fun _ => rfl) fun _ => rfl

section Nodes

variable {tag : String} {type : NodeType} {settings : List (String × String)} {id : NodeId}

theorem makes_makeNode (tag : String) (type : NodeType) (settings : List (String × String)) :
    Makes C X S N (makeNode tag type settings) := by
  intro p
  have hrun : makeNode tag type settings p = _ := makeNode_run
  split at hrun
  · have hmake : Amends S N p.tree (p.made tag type settings).tree := .make type _
    refine .succeeds hrun fun _ hp => ?_
    refine ⟨⟨(hp.amend hmake).supply, fun e he => ?_⟩, .single hmake⟩
    rcases List.mem_cons.mp he with rfl | he
    · intro hg
      rw [NodeId.not_isGroup_of_le hp.supply] at hg
      cases hg
    · exact (hp.amend hmake).index e he
  · exact .refused hrun (.inl rfl)

theorem Rooted.cleared (hp : p.Rooted) (tag : String) (id : NodeId) : (p.cleared tag id).Rooted :=
  (hp.amend (S := fun _ => False) (N := fun _ _ => False) (.remove id)).unindex tag

theorem Rooted.not_group (hp : p.Rooted) (hb : type.isBuilt = true)
    (hi : p.index.lookup tag = some id) {n : Node} (hn : p.tree.node? id = some n)
    (ht : n.type = type) : id.isGroup = false := by
  refine Bool.eq_false_iff.mpr fun hg => ?_
  have hno := hp.index _ (mem_of_lookup hi) hg n hn
  rw [ht, hb] at hno
  cases hno

theorem makes_nodeFor (tag : String) (hb : type.isBuilt = true)
    (settings : List (String × String)) : Makes C X S N (nodeFor tag type settings) := by
  intro p
  have make := fun q => makes_makeNode (C := C) (X := X) (S := S) (N := N) tag type settings q
  have hrun : nodeFor tag type settings p = _ := nodeFor_run
  cases hi : p.index.lookup tag with
  | none =>
    rw [hi] at hrun
    exact (make p).continued hrun fun _ hp => ⟨hp, .refl⟩
  | some id =>
    rw [hi] at hrun
    dsimp only at hrun
    cases hn : p.tree.node? id with
    | none =>
      rw [hn] at hrun
      exact (make _).continued hrun fun _ hp => ⟨hp.unindex tag, .refl⟩
    | some n =>
      rw [hn] at hrun
      dsimp only at hrun
      split at hrun
      · next ht =>
        refine .succeeds hrun fun _ hp => ?_
        have hreuse : Amends S N p.tree (p.reused settings id).tree :=
          .touch id (hp.not_group hb hi hn ht) (.settings settings)
        exact ⟨⟨(hp.amend hreuse).supply, (hp.amend hreuse).index⟩, .single hreuse⟩
      · exact (make _).continued hrun fun _ hp => ⟨hp.cleared tag id, .single (.remove id)⟩

theorem contains_of_nodeFor (h : nodeFor tag type settings p = (.ok id, p')) :
    p'.tree.contains id = true := by
  obtain ⟨n, -, hn, -, rfl⟩ | ⟨q, -, -, rfl, rfl⟩ := nodeFor_cases h
  · refine (Tree.contains_modifyNode (f := refresh settings) fun _ => rfl).trans ?_
    exact Tree.contains_iff.mpr ⟨n, hn⟩
  · refine Tree.contains_iff_mem.mpr ?_
    rw [made, Tree.addNode_eq, List.map_append, List.map_singleton, Tree.id_addedNode]
    exact List.mem_append_right _ (List.mem_singleton_self _)

theorem not_group_of_nodeFor (hp : p.Rooted) (hb : type.isBuilt = true)
    (h : nodeFor tag type settings p = (.ok id, p')) : id.isGroup = false := by
  obtain ⟨n, hi, hn, ht, -⟩ | ⟨q, hq, -, rfl, -⟩ := nodeFor_cases h
  · exact hp.not_group hb hi hn ht
  · refine NodeId.not_isGroup_of_le ?_
    obtain ⟨rfl, -⟩ | ⟨old, -, -, rfl⟩ | ⟨old, n, -, -, -, rfl⟩ := hq
    · exact hp.supply
    · exact hp.supply
    · exact (hp.cleared tag old).supply

/-- What follows getting a node of a tag may count on it not being a group node. -/
theorem makes_nodeFor_bind {α : Type} {f : NodeId → PassM α} (hb : type.isBuilt = true)
    (hf : ∀ id, Makes (C ∧ id.isGroup = false) X S N (f id)) :
    Makes C X S N (nodeFor tag type settings >>= f) := by
  intro p
  have hnode := makes_nodeFor (C := C) (X := X) (S := S) (N := N) tag hb settings p
  rcases h : nodeFor tag type settings p with ⟨fault | id, p'⟩
  · exact hnode.bind fun a p' ha => by cases h.symm.trans ha
  · refine ⟨fun fault q hq => (hf id p').fault fault q (by rwa [bind_of_ok h] at hq),
      fun hc hp => ?_⟩
    have hedits := hnode.edits hc hp
    rw [h] at hedits
    obtain ⟨hrooted, hsteps⟩ := (hf id p').edits ⟨hc, not_group_of_nodeFor hp hb h⟩ hedits.1
    rw [bind_of_ok h]
    exact ⟨hrooted, hedits.2.trans hsteps⟩

theorem makes_activate (id : NodeId) : Makes C X S N (activate id) :=
  .modifyTree fun _ _ => .activate _

theorem makes_wire (hg : C → id.isGroup = false) (slot : Nat) (operand : Operand) :
    Makes C X S N (wire id slot operand) := by
  intro p
  cases hi : (p.tree.node? id).bind (·.inputs[slot]?) with
  | none => exact .refused (wire_missing hi) (.inl rfl)
  | some input =>
    obtain ⟨n, hn, hi⟩ := Option.bind_eq_some_iff.mp hi
    have hfeed : C → Feedable p.tree input.id := fun hc =>
      ⟨id, n, input, hn, hg hc, List.mem_of_getElem? hi, rfl⟩
    cases operand with
    | handle h =>
      have hrun := wire_handle hn hi h
      split at hrun
      · exact .refused hrun (.inl rfl)
      · split at hrun
        · exact .idle hrun
        · exact (MakesAt.edit Fault.isTextual_link
            fun hc => .relink _ _ (.inr (hfeed hc))).continued
            hrun fun _ hp => ⟨hp, .refl⟩
    | literal l =>
      have hrun := wire_literal hn hi l
      split at hrun
      · exact .refused hrun (.inl rfl)
      · next value _ =>
        refine .succeeds hrun fun hc hp => ?_
        have hcut : Amends S N p.tree (p.tree.disconnect input.id) := .unlink _ (.inr (hfeed hc))
        unfold stocked
        split
        · exact ⟨hp.amend hcut, .single hcut⟩
        · have htouch := Amends.touch (S := S) (N := N) (t := p.tree.disconnect input.id) id (hg hc)
            (.input slot value)
          exact ⟨(hp.amend hcut).amend htouch, .head hcut (.single htouch)⟩

theorem makes_wireAll (hg : C → id.isGroup = false) (inputs : List (Nat × Operand)) :
    Makes C X S N (wireAll id inputs) := by
  induction inputs with
  | nil => exact .pure _
  | cons entry rest ih => exact .bind (makes_wire hg _ _) fun _ => ih

theorem makes_readOutput (id : NodeId) (slot : Nat) (kind : Kind) :
    Makes C X S N (readOutput id slot kind) := by
  refine .bind makes_getTree fun t => ?_
  split
  · exact .throw (.inl rfl)
  · exact makes_newHandle _ _ _

theorem makes_build (tag : String) (plan : NodePlan) (hb : plan.type.isBuilt = true) :
    Makes C X S N (build tag plan) := by
  refine .bind (makes_result? _) fun found => ?_
  split
  · exact .pure _
  · refine makes_nodeFor_bind hb fun id => .bind (makes_activate id) fun _ => ?_
    refine .bind (makes_wireAll And.right _) fun _ => .bind (makes_readOutput _ _ _) fun _ => ?_
    exact .bind (makes_keepResult _ _) fun _ => .pure _

theorem makes_constant (x : Numeric.Double) : Makes C X S N (constant x) := by
  refine .bind (makes_result? _) fun found => ?_
  split
  · exact .pure _
  · refine makes_nodeFor_bind rfl fun id p => ?_
    have read : ∀ p, MakesAt (C ∧ id.isGroup = false) X S N p (do
        let handle ← readOutput id 0 .scalar
        keepResult (Tag.constantMark ++ x.text) [handle]
        return handle) := fun p =>
      Makes.bind (makes_readOutput _ _ _) (fun _ => .bind (makes_keepResult _ _) fun _ => .pure _) p
    refine (read (held id x p)).continued rfl fun hc hp => ?_
    have htouch := Amends.touch (S := S) (N := N) (t := p.tree) id hc.2
      (.output (.float x.toSingle) (constantPosition p.tree p.constants))
    exact ⟨⟨(hp.amend htouch).supply, (hp.amend htouch).index⟩, .single htouch⟩

theorem makes_separate (v : Operand) : Makes C X S N (separate v) := by
  refine .bind (makes_tag _ _) fun tag => .bind (makes_result? _) fun found => ?_
  split
  · exact .pure _
  · refine makes_nodeFor_bind rfl fun id => .bind (makes_activate id) fun _ => ?_
    refine .bind (makes_wire And.right _ _) fun _ => ?_
    refine .bind (makes_readOutput _ _ _) fun x => .bind (makes_readOutput _ _ _) fun y => ?_
    refine .bind (makes_readOutput _ _ _) fun z => ?_
    exact .bind (makes_keepResult _ _) fun _ => .pure _

theorem makes_frame (tag label : String) (members : List NodeId) :
    Makes C X S N (frame tag label members) := by
  intro p
  have hframe : NodeType.frame.isBuilt = true := rfl
  have hnode := makes_nodeFor (C := C) (X := X) (S := S) (N := N) (Tag.frameMark ++ tag) hframe [] p
  rcases h : nodeFor (Tag.frameMark ++ tag) .frame [] p with ⟨fault | id, p₁⟩
  · exact hnode.bind fun a p' ha => by cases h.symm.trans ha
  · refine .succeeds (frame_run h) fun hc hp => ?_
    have hedits := hnode.edits hc hp
    rw [h] at hedits
    have hgroup : Amends S N p₁.tree (framedTree p₁.tree id label members) :=
      .frame id (not_group_of_nodeFor hp hframe h) (contains_of_nodeFor h) label members
    exact ⟨⟨(hedits.1.amend hgroup).supply, (hedits.1.amend hgroup).index⟩, hedits.2.tail hgroup⟩

end Nodes

theorem compositional_makes : Compositional fun p m => MakesAt C X S N p m where
  idle := .idle
  bind := .bind
  lacking := fun _ => Makes.throw (.inl rfl)
  tag := makes_tag
  kept := fun _ => kept_of_keepResult .idle .bind makes_keepResult
  build := makes_build
  separate := makes_separate
  constant := makes_constant
  frame := makes_frame

section Boundary

variable {name : String}

theorem makes_reconnect (source : SocketRef) {target : SocketRef} (h : S target.socket) :
    Makes C X S N (edit .link (Tree.reconnect source target)) :=
  .edit Fault.isTextual_link fun _ _ => .relink source target (.inl h)

theorem makes_socketFor {side : Side} (h : N side name) (type : SocketType) :
    Makes C X S N (edit .boundary (Tree.socketFor side name type)) :=
  .edit Fault.isTextual_boundary fun _ _ => .ask side name h type

theorem makes_assembler (side : Side) (socket : Socket) (l : Literal) :
    Makes C X S N (assembler side socket l) := by
  unfold assembler
  split
  · exact .throw (.inl rfl)
  · next word type numbers ha =>
    refine .bind makes_getTree fun t => ?_
    refine makes_nodeFor_bind (isBuilt_of_assembly? ha) fun id => ?_
    refine .bind (makes_wireAll And.right _) fun _ =>
      .bind (.modifyTree fun t hc => ?_) fun _ => .pure _
    exact .touch id hc.2 (.move _)

theorem makes_storeLiteral (side : Side) {id : SocketId} (h : S id) (l : Literal) :
    Makes C X S N (storeLiteral side id l) := by
  refine .bind makes_getTree fun t => ?_
  split
  · exact .throw (.inl rfl)
  · dsimp only
    split
    · split
      · exact .throw (.inl rfl)
      · next value _ =>
        have store : Makes C X S N (discard (edit .boundary (Tree.setSocketDefault id value))) :=
          .bind (.edit Fault.isTextual_boundary fun _ _ => .store id h value) fun _ => .pure _
        split
        · exact .bind (.modifyTree fun _ _ => .unlink id (.inl h)) fun _ => store
        · exact store
    · refine .bind (makes_assembler _ _ _) fun node => ?_
      split
      · refine .bind makes_getTree fun t => ?_
        split
        · exact .throw (.inl rfl)
        · split
          · exact makes_reconnect _ h
          · exact .pure _
      · exact .pure _

theorem makes_assign {target : Handle} (h : S target.socket.socket) (value : Operand) :
    Makes C X S N (assign target value) := by
  have link : ∀ g : Handle, Makes C X S N (do
      if ((← getTree).feedOf? target.socket.socket).map (·.source) ≠ some g.socket then
        edit .link (Tree.reconnect g.socket target.socket)) := by
    intro g
    refine .bind makes_getTree fun t => ?_
    split
    · exact makes_reconnect _ h
    · exact .pure _
  unfold assign
  dsimp only
  cases value with
  | handle g =>
    have route : Makes C X S N (do
        if g.kind = .output then throw (.outputAsValue g.boundaryName)
        if ((← getTree).feedOf? target.socket.socket).map (·.source) ≠ some g.socket then
          edit .link (Tree.reconnect g.socket target.socket)) := by
      dsimp only
      split
      · exact .bind (.throw (.inl rfl)) fun _ => link g
      · exact link g
    split
    · exact .bind (.throw (.inl rfl)) fun _ => route
    · exact route
  | literal l =>
    split
    · exact .bind (.throw (.inl rfl)) fun _ => makes_storeLiteral _ h _
    · exact makes_storeLiteral _ h _

theorem makes_output (h : N .output name) (kind : Kind) : Makes C X S N (output name kind) := by
  unfold output
  split
  · exact .throw (.inl rfl)
  · exact .bind (makes_socketFor h _) fun _ => makes_newHandle _ _ _

theorem makes_settleOutput : Makes C X S N settleOutput := by
  rw [settleOutput_eq]
  exact .modifyTree fun _ _ => .settle

theorem makes_dropStale : Makes C X S N dropStale := by
  have drop : ∀ (ids : List NodeId) (t : Tree),
      ReflTransGen (Amends S N) t (ids.foldl Tree.removeNode t) := by
    intro ids
    induction ids with
    | nil => exact fun t => .refl
    | cons id ids ih => exact fun t => .head (.remove id) (ih _)
  exact .bind .get fun p => .bind (.modifyTree_of_steps fun t _ => drop _ t) fun _ => .pure _

theorem makes_conclude (kind : Kind) : Makes C X S N (conclude kind) := by
  refine .bind makes_settleOutput fun _ => .bind .get fun p => ?_
  exact .bind makes_dropStale fun removed => .bind makes_getTree fun t => .pure _

theorem makes_input {default : Option Literal} (hN : N .input name)
    (hS : ∀ l, default = some l → ∀ x, S x) (kind : Kind) :
    Makes C X S N (input name kind default) := by
  unfold input
  split
  · exact .throw (.inl rfl)
  · refine .bind (makes_socketFor hN _) fun id => ?_
    split
    · next l => exact .bind (makes_storeLiteral _ (hS l rfl id) _) fun _ => makes_newHandle _ _ _
    · exact makes_newHandle _ _ _

section Inputs

variable (hN : ∀ name, N .input name)
include hN

theorem makes_declareInputs (options : Options) (known : Inputs) (names : List String) :
    Makes C X S N (declareInputs options known names) := by
  induction names generalizing known with
  | nil => exact .pure _
  | cons name rest ih =>
    refine .bind (makes_input (hN name) (fun l hl => ?_) _) fun _ => ih _
    cases hl

theorem makes_openInputs (unknowns : List String) (options : Options) :
    Makes C X S N (openInputs unknowns options) := by
  refine .bind (makes_declareInputs hN _ _ _) fun inputs => ?_
  exact .bind (.modifyTree fun _ _ => .keep hN _) fun _ => .pure _

end Inputs

theorem makes_synthesis (hS : ∀ x, S x) (hN : ∀ side name, N side name) (unknowns : List String)
    (term : Term) (options : Options) : Edits S N (synthesis unknowns term options) := by
  rw [synthesis_eq]
  refine .bind (makes_openInputs (hN _) _ _) fun inputs => ?_
  refine .bind (compositional_makes.evaluate (fun _ => Makes.throw (.inr trivial)) _ _ _)
    fun value => ?_
  refine .bind (makes_output (hN _ _) _) fun target => .bind (makes_assign (hS _) _) fun _ => ?_
  exact makes_conclude _

end Boundary

end Pass

end FormulaGraph
