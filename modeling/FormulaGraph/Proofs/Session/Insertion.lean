import FormulaGraph.Proofs.Graph.Respects

/-!
Trees that differ by a text frame. The frame has a label and a width of its own
in the second tree. If it is new there, it has taken an identity, and all later
ones are one higher. What a pass looks up in such trees corresponds.
-/

namespace FormulaGraph

open Relation

variable {α β : Type}

section Forall

variable {R : α → β → Prop} {p : α → Bool} {q : β → Bool} {l : List α} {l' : List β}
  (h : List.Forall₂ R l l')
include h

theorem forall₂_map_eq {γ : Type} {f : α → γ} {g : β → γ} (hfg : ∀ a b, R a b → g b = f a) :
    l'.map g = l.map f := by
  induction h with
  | nil => rfl
  | @cons a b _ _ hr _ ih => rw [List.map_cons, List.map_cons, hfg a b hr, ih]

variable (hpq : ∀ a b, R a b → q b = p a)
include hpq

theorem forall₂_find? : Option.Rel R (l.find? p) (l'.find? q) := by
  induction h with
  | nil => exact .none
  | @cons a b _ _ hr _ ih =>
    rw [List.find?_cons, List.find?_cons, hpq a b hr]
    split
    · exact .some hr
    · exact ih

theorem forall₂_any : l'.any q = l.any p := by
  induction h with
  | nil => rfl
  | @cons a b _ _ hr _ ih => rw [List.any_cons, List.any_cons, hpq a b hr, ih]

theorem forall₂_filter : List.Forall₂ R (l.filter p) (l'.filter q) :=
  List.rel_filter (fun {a b} hr => by simp [hpq a b hr]) h

end Forall

theorem map_ite {f : α → β} {c c' : Prop} [Decidable c] [Decidable c'] {a b : Option α}
    {a' b' : Option β} (hc : c' ↔ c) (ha : a' = a.map f) (hb : b' = b.map f) :
    (if c' then a' else b') = (if c then a else b).map f := by
  by_cases h : c
  · rw [if_pos h, if_pos (hc.mpr h), ha]
  · rw [if_neg h, if_neg (mt hc.mp h), hb]

structure Insertion where
  frame : NodeId
  isNew : Bool

namespace Insertion

section Identities

variable (I : Insertion)

def shift (i : Nat) : Nat :=
  if I.isNew then if I.frame.index ≤ i then i + 1 else i else i

def node (x : NodeId) : NodeId := ⟨I.shift x.index⟩

def socket (x : SocketId) : SocketId := ⟨I.shift x.index⟩

def ref (r : SocketRef) : SocketRef := ⟨I.node r.node, I.socket r.socket⟩

def port (s : Socket) : Socket := { s with id := I.socket s.id }

def whole (n : Node) : Node :=
  { n with
    id := I.node n.id
    inputs := n.inputs.map I.port
    outputs := n.outputs.map I.port
    parent := n.parent.map I.node }

def shared (n : Node) : Bool := !(I.isNew && n.id == I.frame)

def bald (n : Node) : Node := { n with label := "", width := 0 }

def veil (n : Node) : Node := if n.id = I.frame then bald n else n

variable {I} {i j : Nat} {x y : NodeId} {n : Node}

theorem shift_injective (h : I.shift i = I.shift j) : i = j := by
  unfold shift at h
  split at h
  · split at h <;> split at h <;> omega
  · exact h

theorem shift_of_lt (h : I.isNew = true → i < I.frame.index) : I.shift i = i := by
  unfold shift
  split
  · next hnew => rw [if_neg (Nat.not_le.mpr (h hnew))]
  · rfl

theorem shift_add (h : I.isNew = true → I.frame.index ≤ i) (k : Nat) :
    I.shift (i + k) = I.shift i + k := by
  unfold shift
  split
  · next hnew =>
    rw [if_pos (h hnew), if_pos (Nat.le_trans (h hnew) (Nat.le_add_right _ _))]
    omega
  · rfl

theorem le_shift : i ≤ I.shift i := by
  unfold shift
  split
  · split <;> omega
  · exact Nat.le_refl i

@[simp] theorem node_inj : I.node x = I.node y ↔ x = y := by
  constructor
  · intro h
    obtain ⟨i⟩ := x
    obtain ⟨j⟩ := y
    exact congrArg _ (shift_injective (NodeId.mk.inj h))
  · exact congrArg _

@[simp] theorem socket_inj {a b : SocketId} : I.socket a = I.socket b ↔ a = b := by
  constructor
  · intro h
    obtain ⟨i⟩ := a
    obtain ⟨j⟩ := b
    exact congrArg _ (shift_injective (SocketId.mk.inj h))
  · exact congrArg _

@[simp] theorem node_beq : (I.node x == I.node y) = (x == y) := by
  rw [Bool.eq_iff_iff]
  simp

@[simp] theorem socket_beq {a b : SocketId} : (I.socket a == I.socket b) = (a == b) := by
  rw [Bool.eq_iff_iff]
  simp

@[simp] theorem ref_inj {a b : SocketRef} : I.ref a = I.ref b ↔ a = b := by
  obtain ⟨a, s⟩ := a
  obtain ⟨b, r⟩ := b
  simp [ref]

theorem node_ne_frame (h : I.isNew = true) : I.node x ≠ I.frame := by
  intro heq
  have : I.shift x.index = I.frame.index := congrArg NodeId.index heq
  unfold shift at this
  rw [if_pos h] at this
  split at this <;> omega

section Group

variable (hf : I.frame.isGroup = false)
include hf

theorem two_le_frame : 2 ≤ I.frame.index := by
  refine Nat.not_lt.mp fun h => ?_
  rw [NodeId.isGroup_iff_lt.mpr h] at hf
  cases hf

theorem node_group (hx : x.isGroup = true) : I.node x = x := by
  have h₁ := NodeId.isGroup_iff_lt.mp hx
  have h₂ := two_le_frame hf
  unfold node
  rw [shift_of_lt fun _ => by omega]

theorem isGroup_node : (I.node x).isGroup = x.isGroup := by
  cases hx : x.isGroup with
  | true => rw [node_group hf hx, hx]
  | false =>
    refine Bool.eq_false_iff.mpr fun hg => ?_
    have : I.shift x.index < 2 := NodeId.isGroup_iff_lt.mp hg
    rw [NodeId.isGroup_iff_lt.mpr (Nat.lt_of_le_of_lt le_shift this)] at hx
    cases hx

theorem node_eq_group (hg : y.isGroup = true) : I.node x = y ↔ x = y := by
  conv_lhs => rw [← node_group hf hg]
  exact node_inj

end Group

theorem bald_veil : bald (I.veil n) = bald n := by
  unfold veil
  split <;> rfl

@[simp] theorem id_veil : (I.veil n).id = n.id := by
  unfold veil
  split <;> rfl

@[simp] theorem id_whole : (I.whole n).id = I.node n.id := rfl

theorem veil_comm {g : Node → Node} (hid : ∀ n, (g n).id = n.id)
    (hg : ∀ n, n.id = I.frame → bald (g n) = g (bald n)) (n : Node) :
    I.veil (g n) = g (I.veil n) := by
  unfold veil
  rw [hid]
  split
  · next h => exact hg n h
  · rfl

end Identities

variable (I : Insertion)

structure Links (l l' : Link) : Prop where
  source : l'.source = I.ref l.source
  target : l'.target = I.ref l.target

/-- Trees that are the same up to identities and the text frame. -/
structure Agrees (t t' : Tree) : Prop where
  editor : t'.editor = t.editor
  nodes : (t'.nodes.filter I.shared).map I.veil = t.nodes.map fun n => I.veil (I.whole n)
  links : List.Forall₂ I.Links t.links t'.links
  boundary : t'.boundary = t.boundary.map I.port

/-- Such trees in the course of a pass. New identities correspond too. -/
structure Relates (t t' : Tree) : Prop extends I.Agrees t t' where
  active : t'.active = t.active.map I.node
  ungrouped : I.frame.isGroup = false
  untagged : ∀ n ∈ t'.nodes, n.id = I.frame → Tag.isTag n.name = false
  inactive : t'.active ≠ some I.frame
  placed : I.frame.index < t'.supply
  supply : t'.supply = I.shift t.supply

def Twins (n n' : Node) : Prop := I.veil n' = I.veil (I.whole n)

variable {I} {t t' u u' : Tree} {x y : NodeId} {n n' : Node} {i : Nat}

namespace Twins

variable (h : I.Twins n n')
include h

theorem bald_eq : bald n' = bald (I.whole n) := by
  rw [← bald_veil, h, bald_veil]

theorem field (k : Node → α) : k (bald n') = k (bald (I.whole n)) :=
  congrArg k h.bald_eq

theorem id_eq : n'.id = I.node n.id := h.field Node.id

theorem type_eq : n'.type = n.type := h.field Node.type

theorem name_eq : n'.name = n.name := h.field Node.name

theorem position_eq : n'.position = n.position := h.field Node.position

theorem inputs_eq : n'.inputs = n.inputs.map I.port := h.field Node.inputs

theorem outputs_eq : n'.outputs = n.outputs.map I.port := h.field Node.outputs

theorem parent_eq : n'.parent = n.parent.map I.node := h.field Node.parent

theorem eq_whole (hne : I.node n.id ≠ I.frame) : n' = I.whole n := by
  have hid := h.id_eq
  unfold Twins veil at h
  rwa [if_neg (by rwa [hid]), if_neg (by rwa [id_whole])] at h

theorem socket? (y : SocketId) : n'.socket? (I.socket y) = (n.socket? y).map I.port := by
  unfold Node.socket?
  rw [h.inputs_eq, h.outputs_eq, ← List.map_append, List.find?_map]
  congr 1
  refine Tree.find?_congr_of_mem fun s _ => ?_
  simp [port]

end Twins

namespace Relates

theorem le_supply (h : I.Relates t t') (hnew : I.isNew = true) : I.frame.index ≤ t.supply := by
  have hplaced := h.placed
  rw [h.supply, shift, if_pos hnew] at hplaced
  split at hplaced <;> omega

section Lookups

variable (h : I.Relates t t')
include h

theorem node? (x : NodeId) : Option.Rel I.Twins (t.node? x) (t'.node? (I.node x)) := by
  have hshared : t'.node? (I.node x) = (t'.nodes.filter I.shared).find? (·.id == I.node x) := by
    unfold Tree.node?
    rw [List.find?_filter]
    refine Tree.find?_congr_of_mem fun n _ => ?_
    cases hnew : I.isNew with
    | false =>
      rw [Bool.eq_iff_iff]
      simp [shared, hnew]
    | true =>
      by_cases hid : n.id = I.node x
      · simp [shared, hid, node_ne_frame hnew]
      · simp [hid]
  have hmap : (t'.node? (I.node x)).map I.veil = (t.node? x).map fun n => I.veil (I.whole n) := by
    have hveil : ∀ l : List Node, (l.find? (·.id == I.node x)).map I.veil =
        (l.map I.veil).find? (·.id == I.node x) := by
      intro l
      rw [List.find?_map]
      congr 1
      exact Tree.find?_congr_of_mem fun n _ => by simp
    rw [hshared, hveil, h.nodes, List.find?_map]
    unfold Tree.node?
    congr 1
    exact Tree.find?_congr_of_mem fun n _ => by simp
  cases hn : t.node? x with
  | none =>
    rw [hn, Option.map_none, Option.map_eq_none_iff] at hmap
    rw [hmap]
    exact .none
  | some n =>
    rw [hn] at hmap
    obtain ⟨n', hn', htwins⟩ := Option.map_eq_some_iff.mp hmap
    rw [hn']
    exact .some htwins

theorem tagged : List.Forall₂ I.Twins (t.nodes.filter fun n => Tag.isTag n.name)
    (t'.nodes.filter fun n => Tag.isTag n.name) := by
  have hshared : t'.nodes.filter (fun n => Tag.isTag n.name) =
      (t'.nodes.filter I.shared).filter fun n => Tag.isTag n.name := by
    rw [List.filter_filter]
    refine List.filter_congr fun n hn => ?_
    by_cases hframe : n.id = I.frame
    · simp [h.untagged n hn hframe]
    · simp [shared, hframe]
  have htwins : List.Forall₂ I.Twins t.nodes (t'.nodes.filter I.shared) := by
    have heq : List.Forall₂ Eq ((t'.nodes.filter I.shared).map I.veil)
        (t.nodes.map fun n => I.veil (I.whole n)) := by
      rw [h.nodes]
      exact List.forall₂_refl _
    rw [List.forall₂_map_left_iff, List.forall₂_map_right_iff] at heq
    exact heq.flip
  rw [hshared]
  exact forall₂_filter htwins fun n n' hnn => by rw [hnn.name_eq]

theorem contains (x : NodeId) : t'.contains (I.node x) = t.contains x := by
  rw [Bool.eq_iff_iff, Tree.contains_iff, Tree.contains_iff]
  rcases rel_cases (h.node? x) with ⟨hn, hn'⟩ | ⟨n, n', hn, hn', -⟩
  · rw [hn, hn']
  · rw [hn, hn']
    simp

theorem parent? (x : NodeId) : t'.parent? (I.node x) = (t.parent? x).map I.node := by
  unfold Tree.parent?
  rcases rel_cases (h.node? x) with ⟨hn, hn'⟩ | ⟨n, n', hn, hn', htwins⟩
  · rw [hn, hn']
    rfl
  · rw [hn, hn']
    exact htwins.parent_eq

theorem feedOf? (y : SocketId) : Option.Rel I.Links (t.feedOf? y) (t'.feedOf? (I.socket y)) := by
  refine forall₂_find? h.links fun l l' hl => ?_
  rw [hl.target]
  simp [ref]

theorem socketsOn (side : Side) : t'.socketsOn side = (t.socketsOn side).map I.port := by
  unfold Tree.socketsOn
  rw [h.boundary, List.filter_map]
  rfl

theorem boundarySocket? (y : SocketId) :
    t'.boundarySocket? (I.socket y) = (t.boundarySocket? y).map I.port := by
  unfold Tree.boundarySocket?
  rw [h.boundary, List.find?_map]
  congr 1
  exact Tree.find?_congr_of_mem fun s _ => by simp [port]

theorem boundaryNamed? (side : Side) (name : String) :
    t'.boundaryNamed? side name = (t.boundaryNamed? side name).map I.port := by
  unfold Tree.boundaryNamed?
  rw [h.boundary, List.find?_map]
  rfl

theorem boundaryIndex? (y : SocketId) : t'.boundaryIndex? (I.socket y) = t.boundaryIndex? y := by
  unfold Tree.boundaryIndex?
  rw [h.boundarySocket?]
  cases t.boundarySocket? y with
  | none => rfl
  | some s =>
    dsimp only [Option.map_some, Option.bind_some]
    rw [show (I.port s).side = s.side from rfl, h.socketsOn, List.findIdx?_map]
    congr 1
    funext r
    simp [port]

end Lookups

section Loops

theorem feeders {links links' : List Link} (h : List.Forall₂ I.Links links links') (id : NodeId) :
    Link.feeders links' (I.node id) = (Link.feeders links id).map I.node := by
  unfold Link.feeders
  have hfilter : List.Forall₂ I.Links (links.filter (·.target.node == id))
      (links'.filter (·.target.node == I.node id)) := by
    refine forall₂_filter h fun l l' hl => ?_
    rw [hl.target]
    simp [ref]
  rw [List.map_map]
  refine forall₂_map_eq hfilter fun l l' hl => ?_
  rw [hl.source]
  rfl

/-- Links that correspond lead back to nodes that correspond. -/
theorem leadsBack {links links' : List Link} (h : List.Forall₂ I.Links links links')
    (feeder : NodeId) (stack seen : List NodeId) :
    Link.leadsBack links' (I.node feeder) (stack.map I.node) (seen.map I.node) =
      Link.leadsBack links feeder stack seen := by
  fun_induction Link.leadsBack links feeder stack seen with
  | case1 => rw [List.map_nil, Link.leadsBack]
  | case2 => rw [List.map_cons, Link.leadsBack, if_pos rfl]
  | case3 seen current rest hne hold ih =>
    rw [List.map_cons, Link.leadsBack, if_neg (by simpa using hne),
      if_pos (List.mem_map_of_mem hold), ih]
  | case4 seen current rest hne hnew ih =>
    rw [List.map_cons, Link.leadsBack, if_neg (by simpa using hne), if_neg (by simpa using hnew),
      feeders h, ← List.map_reverse, ← List.map_append, ← List.map_cons, ih]

variable (h : I.Relates t t')
include h

theorem dependsOn (x y : NodeId) : t'.dependsOn (I.node x) (I.node y) = t.dependsOn x y :=
  leadsBack h.links y [x] []

end Loops

/-- What forbids a link in the first tree, as it is told in the second. -/
def linkFault (I : Insertion) : LinkFault → LinkFault
  | .nodeMissing x => .nodeMissing (I.node x)
  | .socketMissing x => .socketMissing (I.socket x)
  | .occupied x => .occupied (I.socket x)
  | fault => fault

theorem same_linkFault (fault : LinkFault) :
    (Fault.link fault).Same (.link (linkFault I fault)) := by
  cases fault <;> exact ⟨rfl, rfl⟩

theorem linkFault? (h : I.Relates t t') (a b : SocketRef) :
    t'.linkFault? (I.ref a) (I.ref b) = (t.linkFault? a b).map (linkFault I) := by
  have hoccupied : t'.links.any (·.target.socket == (I.ref b).socket) =
      t.links.any (·.target.socket == b.socket) := by
    refine forall₂_any h.links fun l l' hl => ?_
    rw [hl.target]
    simp [ref]
  have hloop : t'.dependsOn (I.ref a).node (I.ref b).node = t.dependsOn a.node b.node :=
    h.dependsOn a.node b.node
  have hself : (I.ref a).node = (I.ref b).node ↔ a.node = b.node := node_inj
  have hsource : Option.Rel I.Twins (t.node? a.node) (t'.node? (I.ref a).node) := h.node? a.node
  have htarget : Option.Rel I.Twins (t.node? b.node) (t'.node? (I.ref b).node) := h.node? b.node
  unfold Tree.linkFault?
  rcases rel_cases hsource with ⟨hn, hn'⟩ | ⟨n, n', hn, hn', hnode⟩
  · rw [hn, hn']
    rfl
  rcases rel_cases htarget with ⟨hm, hm'⟩ | ⟨m, m', hm, hm', hmode⟩
  · rw [hn, hn', hm, hm']
    rfl
  have houtput : n'.socket? (I.ref a).socket = (n.socket? a.socket).map I.port := hnode.socket? _
  have hinput : m'.socket? (I.ref b).socket = (m.socket? b.socket).map I.port := hmode.socket? _
  rw [hn, hn', hm, hm']
  dsimp only
  rw [houtput, hinput]
  cases n.socket? a.socket with
  | none => rfl
  | some output =>
    cases m.socket? b.socket with
    | none => rfl
    | some input =>
      refine map_ite .rfl rfl (map_ite .rfl rfl (map_ite ?_ rfl (map_ite hself rfl ?_)))
      · rw [hoccupied]
        rfl
      · exact map_ite (by rw [hloop]) rfl rfl

end Relates

end Insertion

end FormulaGraph
