import FormulaGraph.Proofs.Session.Insertion

/-!
Edits of trees that differ by a text frame. Each edit of a pass, made in both
trees, leaves trees that differ no more than that.
-/

namespace FormulaGraph.Insertion

variable {I : Insertion} {t t' u u' : Tree} {x y : NodeId} {n n' : Node} {i : Nat}

namespace Relates

/-- Edits that take out nodes and change others, alike in both trees. -/
theorem edit (h : I.Relates t t') {q r : NodeId → Bool} {g k : Node → Node}
    (hnodes : u.nodes = (t.nodes.filter (q ·.id)).map g)
    (hnodes' : u'.nodes = (t'.nodes.filter (r ·.id)).map k) (hq : ∀ x, r (I.node x) = q x)
    (hid : ∀ n, (k n).id = n.id) (hname : ∀ n, (k n).name = n.name)
    (hveil : ∀ n, n.id = I.frame → bald (k n) = k (bald n))
    (hwhole : ∀ n, I.whole (g n) = k (I.whole n))
    (heditor : u'.editor = u.editor) (hlinks : List.Forall₂ I.Links u.links u'.links)
    (hboundary : u'.boundary = u.boundary.map I.port) (hactive : u'.active = u.active.map I.node)
    (hinactive : u'.active ≠ some I.frame) (hplaced : t'.supply ≤ u'.supply)
    (hsupply : u'.supply = I.shift u.supply) : I.Relates u u' where
  editor := heditor
  nodes := by
    have hshared : ∀ l : List Node, (l.map k).filter I.shared = (l.filter I.shared).map k := by
      intro l
      rw [List.filter_map]
      congr 1
      exact List.filter_congr fun n _ => by simp [shared, hid]
    have hkept : ∀ l : List Node,
        (l.filter (r ·.id)).map I.veil = (l.map I.veil).filter (r ·.id) := by
      intro l
      rw [List.filter_map]
      congr 1
      exact List.filter_congr fun n _ => by simp
    have hcomm : ∀ l : List Node, (l.map k).map I.veil = (l.map I.veil).map k := by
      intro l
      rw [List.map_map, List.map_map]
      exact List.map_congr_left fun n _ => veil_comm hid hveil n
    calc (u'.nodes.filter I.shared).map I.veil
        = (((t'.nodes.filter I.shared).map I.veil).filter (r ·.id)).map k := by
          rw [hnodes', hshared, hcomm, ← hkept, List.filter_comm]
      _ = ((t.nodes.map fun n => I.veil (I.whole n)).filter (r ·.id)).map k := by rw [h.nodes]
      _ = u.nodes.map fun n => I.veil (I.whole n) := by
          rw [hnodes, List.filter_map, List.map_map, List.map_map,
            List.filter_congr fun n _ => show _ = q n.id by simp [hq]]
          refine List.map_congr_left fun n _ => ?_
          simp only [Function.comp_apply]
          rw [hwhole, veil_comm hid hveil]
  links := hlinks
  boundary := hboundary
  active := hactive
  ungrouped := h.ungrouped
  untagged := by
    intro n hn hframe
    rw [hnodes'] at hn
    obtain ⟨m, hm, rfl⟩ := List.mem_map.mp hn
    rw [hname]
    exact h.untagged m (List.mem_filter.mp hm).1 (hid m ▸ hframe)
  inactive := hinactive
  placed := Nat.lt_of_lt_of_le h.placed hplaced
  supply := hsupply

/-- A change of a node and what it is in the second tree. -/
theorem modifyBoth (h : I.Relates t t') {f k : Node → Node} (hid : ∀ n, (k n).id = n.id)
    (hname : ∀ n, (k n).name = n.name)
    (hveil : I.node x = I.frame → ∀ n, bald (k n) = k (bald n))
    (hwhole : ∀ n, I.whole (f n) = k (I.whole n)) :
    I.Relates (t.modifyNode x f) (t'.modifyNode (I.node x) k) := by
  have pick : ∀ {α : Type} (field : Node → α), (∀ n, field (k n) = field n) →
      ∀ n : Node, field (if n.id == I.node x then k n else n) = field n := by
    intro α field hk n
    split
    · exact hk n
    · rfl
  refine h.edit (q := fun _ => true) (r := fun _ => true)
    (g := fun n => if n.id == x then f n else n) (k := fun n => if n.id == I.node x then k n else n)
    (by rw [List.filter_true]; rfl) (by rw [List.filter_true]; rfl) (fun _ => rfl) (pick _ hid)
    (pick _ hname) ?_ ?_ h.editor h.links h.boundary h.active h.inactive (Nat.le_refl _) h.supply
  · intro n hn
    show bald (if n.id == I.node x then k n else n) =
      if n.id == I.node x then k (bald n) else bald n
    split
    · next hx => exact hveil ((beq_iff_eq.mp hx).symm.trans hn) n
    · rfl
  · intro n
    by_cases hn : n.id = x
    · simp [hn, hwhole]
    · simp [hn]

theorem modifyNode (h : I.Relates t t') (hx : I.node x ≠ I.frame) {f : Node → Node}
    (hid : ∀ n, (f n).id = n.id) (hname : ∀ n, (f n).name = n.name)
    (hwhole : ∀ n, I.whole (f n) = f (I.whole n)) :
    I.Relates (t.modifyNode x f) (t'.modifyNode (I.node x) f) :=
  h.modifyBoth hid hname (fun heq => absurd heq hx) hwhole

theorem setParent (h : I.Relates t t') (frame root : NodeId) :
    I.Relates (t.setParent frame root) (t'.setParent (I.node frame) (I.node root)) :=
  h.modifyBoth (fun _ => rfl) (fun _ => rfl) (fun _ _ => rfl) fun _ => rfl

theorem foldl_setParent (h : I.Relates t t') (frame : NodeId) (roots : List NodeId) :
    I.Relates (roots.foldl (fun t root => t.setParent frame root) t)
      ((roots.map I.node).foldl (fun t root => t.setParent (I.node frame) root) t') := by
  induction roots generalizing t t' with
  | nil => exact h
  | cons root roots ih => exact ih (h.setParent frame root)

section Frames

variable (h : I.Relates t t')
include h

theorem length_le : t.nodes.length ≤ t'.nodes.length := by
  have := congrArg List.length h.nodes
  rw [List.length_map, List.length_map] at this
  rw [← this]
  exact List.length_filter_le _ _

theorem ancestryWithin (limit : Nat) (x : NodeId) :
    t'.ancestryWithin limit (I.node x) = (t.ancestryWithin limit x).map I.node := by
  induction limit generalizing x with
  | zero => rfl
  | succ limit ih =>
    unfold Tree.ancestryWithin
    rw [h.parent?]
    cases t.parent? x with
    | none => rfl
    | some y =>
      dsimp only [Option.map_some]
      rw [ih, List.map_cons]

variable (hn : t.Nested)
include hn

/-- The second tree may have one node more, but frames that are nested end before
that matters. -/
theorem ancestry (x : NodeId) : t'.ancestry (I.node x) = (t.ancestry x).map I.node := by
  rw [Tree.ancestry, h.ancestryWithin, hn.ancestryWithin_eq h.length_le]

theorem outermostBelow (frame x : NodeId) :
    t'.outermostBelow (I.node frame) (I.node x) = I.node (t.outermostBelow frame x) := by
  unfold Tree.outermostBelow
  have hsame : (fun y => y != I.node frame) ∘ I.node = fun y => y != frame := by
    funext y
    rw [Bool.eq_iff_iff]
    simp
  rw [h.ancestry hn, ← List.map_tail, List.takeWhile_map, hsame, ← List.map_cons,
    List.getLastD_eq_getLast?, List.getLast?_map, Option.getD_map, ← List.getLastD_eq_getLast?]

theorem movedRoot? (frame x : NodeId) :
    t'.movedRoot? (I.node frame) (I.node x) = (t.movedRoot? frame x).map I.node := by
  unfold Tree.movedRoot?
  dsimp only
  rw [h.outermostBelow hn, h.ancestry hn]
  refine map_ite ?_ rfl rfl
  simp

/-- Putting generated nodes under a generated frame. -/
theorem framedTree (hx : I.node x ≠ I.frame) (label : String) (members : List NodeId) :
    I.Relates (Pass.framedTree t x label members)
      (Pass.framedTree t' (I.node x) label (members.map I.node)) := by
  have hroots : (members.map I.node).filterMap (t'.movedRoot? (I.node x)) =
      (members.filterMap (t.movedRoot? x)).map I.node := by
    rw [List.filterMap_map, List.map_filterMap]
    congr 1
    funext m
    exact h.movedRoot? hn x m
  have hposition : ((members.map I.node).head?.bind t'.node?).map (·.position) =
      (members.head?.bind t.node?).map (·.position) := by
    cases members with
    | nil => rfl
    | cons m _ =>
      show (t'.node? (I.node m)).map _ = (t.node? m).map _
      rcases rel_cases (h.node? m) with ⟨hm, hm'⟩ | ⟨n, n', hm, hm', htwins⟩
      · rw [hm, hm']
      · rw [hm, hm']
        exact congrArg some htwins.position_eq
  unfold Pass.framedTree
  rw [hroots, hposition]
  exact (h.modifyNode hx (f := Pass.captioned label _) (fun _ => rfl) (fun _ => rfl)
    fun _ => rfl).foldl_setParent x _

end Frames
section

variable (h : I.Relates t t')
include h

theorem setActive (hx : I.node x ≠ I.frame) :
    I.Relates (t.setActive (some x)) (t'.setActive (some (I.node x))) := by
  have hactive : (some (I.node x)).filter t'.contains =
      ((some x).filter t.contains).map I.node := by
    simp only [Option.filter, h.contains]
    split <;> rfl
  refine { h with active := hactive, inactive := ?_ }
  intro heq
  have heq : (some (I.node x)).filter t'.contains = some I.frame := heq
  exact hx (Option.some.inj (Option.filter_eq_some_iff.mp heq).1)

theorem relink {links links' : List Link}
    (hl : List.Forall₂ I.Links links links') :
    I.Relates { t with links := links } { t' with links := links' } :=
  { h with links := hl }

theorem disconnect (y : SocketId) : I.Relates (t.disconnect y) (t'.disconnect (I.socket y)) := by
  refine h.relink (forall₂_filter h.links fun l l' hl => ?_)
  rw [hl.target, Bool.eq_iff_iff]
  simp [ref]

theorem reconnect (a b : SocketRef) :
    Outcomes Pass.Whatever ((Tree.reconnect a b t).1.mapError Fault.link)
        ((Tree.reconnect (I.ref a) (I.ref b) t').1.mapError Fault.link) ∧
      I.Relates (Tree.reconnect a b t).2 (Tree.reconnect (I.ref a) (I.ref b) t').2 := by
  have hd : I.Relates (t.disconnect b.socket) (t'.disconnect (I.ref b).socket) :=
    h.disconnect b.socket
  rw [Tree.reconnect_run, Tree.reconnect_run, hd.linkFault?]
  cases (t.disconnect b.socket).linkFault? a b with
  | some fault =>
    refine ⟨.error (same_linkFault fault), hd.relink (List.rel_append hd.links ?_)⟩
    refine forall₂_filter h.links fun l l' hl => ?_
    rw [hl.target]
    simp [ref]
  | none =>
    refine ⟨.ok trivial, ?_⟩
    have hplaced := Nat.lt_succ_of_lt hd.placed
    refine { hd with
      links := List.rel_append hd.links (.cons ⟨rfl, rfl⟩ .nil)
      placed := hplaced
      supply := ?_ }
    show (t'.disconnect (I.ref b).socket).supply + 1 = I.shift ((t.disconnect b.socket).supply + 1)
    rw [hd.supply, shift_add hd.le_supply]

theorem removeNode (hx : x.isGroup = false) :
    I.Relates (t.removeNode x) (t'.removeNode (I.node x)) := by
  have hx' : (I.node x).isGroup = false := (isGroup_node h.ungrouped).trans hx
  rw [Tree.removeNode_eq hx, Tree.removeNode_eq hx']
  have hparent : ∀ p : Option NodeId, (p.map I.node).filter (· != I.node x) =
      (p.filter (· != x)).map I.node := by
    intro p
    cases p with
    | none => rfl
    | some y =>
      simp only [Option.map_some, Option.filter, bne, node_beq]
      split <;> rfl
  refine h.edit (q := (· != x)) (r := (· != I.node x))
    (g := fun n => { n with parent := n.parent.filter (· != x) })
    (k := fun n => { n with parent := n.parent.filter (· != I.node x) }) rfl rfl ?_ (fun _ => rfl)
    (fun _ => rfl) (fun _ _ => rfl) ?_ h.editor ?_ h.boundary ?_ ?_ (Nat.le_refl _) h.supply
  · intro y
    simp [bne]
  · intro n
    simp [whole, hparent]
  · refine forall₂_filter h.links fun l l' hl => ?_
    simp [Link.touchesNode, hl.source, hl.target, ref]
  · dsimp only
    rw [h.active, hparent]
  · intro heq
    exact h.inactive (Option.filter_eq_some_iff.mp heq).1

theorem node_ne_frame_of_active (hx : t.active = some x) : I.node x ≠ I.frame := by
  intro heq
  refine h.inactive ?_
  rw [h.active, hx]
  exact congrArg some heq

theorem node_ne_frame_of_group (hx : x.isGroup = true) : I.node x ≠ I.frame := by
  intro heq
  have hframe := h.ungrouped
  rw [← heq, isGroup_node h.ungrouped, hx] at hframe
  cases hframe

/-- The active node is not the text frame, so it is the same but for its
identities. -/
theorem activeNode? : t'.activeNode? = t.activeNode?.map I.whole := by
  unfold Tree.activeNode?
  rw [h.active]
  cases hactive : t.active with
  | none => rfl
  | some x =>
    dsimp only [Option.map_some, Option.bind_some]
    rcases rel_cases (h.node? x) with ⟨hn, hn'⟩ | ⟨n, n', hn, hn', htwins⟩
    · rw [hn, hn']
      rfl
    · have hne := h.node_ne_frame_of_active hactive
      rw [hn, hn', htwins.eq_whole (by rwa [Tree.id_of_node? hn])]
      rfl

theorem nextPosition : Pass.nextPosition t' = Pass.nextPosition t := by
  unfold Pass.nextPosition
  rw [h.activeNode?]
  cases t.activeNode? <;> rfl

theorem besideActive : I.Relates (Pass.besideActive t) (Pass.besideActive t') := by
  have hgroup : ∀ {x}, x.isGroup = true → I.node x = x := fun hx => node_group h.ungrouped hx
  have hactive : t'.active.getD .groupInput = I.node (t.active.getD .groupInput) := by
    rw [h.active]
    cases t.active with
    | none => exact (hgroup rfl).symm
    | some x => rfl
  have hanchor : I.node (t.active.getD .groupInput) ≠ I.frame := by
    cases ha : t.active with
    | none => exact h.node_ne_frame_of_group rfl
    | some x => exact h.node_ne_frame_of_active ha
  unfold Pass.besideActive
  rw [hactive]
  rcases rel_cases (h.node? (t.active.getD .groupInput)) with ⟨hn, hn'⟩ | ⟨n, n', hn, hn', htwins⟩
  · rw [hn, hn']
    exact h
  · rw [hn, hn', htwins.eq_whole (by rwa [Tree.id_of_node? hn])]
    have hmoved := h.modifyNode (x := .groupOutput) (f := Pass.following n)
      (h.node_ne_frame_of_group rfl) (fun _ => rfl) (fun _ => rfl) fun _ => rfl
    rwa [hgroup rfl] at hmoved

end

theorem instances (h : I.isNew = true → I.frame.index ≤ i) (specs : List SocketSpec)
    (side : Side) : SocketSpec.instances specs side (I.shift i) =
      (SocketSpec.instances specs side i).map I.port := by
  refine List.ext_getElem? fun k => ?_
  simp only [SocketSpec.instances, List.getElem?_map, List.getElem?_mapIdx, Option.map_map]
  congr 1
  funext spec
  simp [port, socket, shift_add h]
section

variable (h : I.Relates t t')
include h

theorem instantiate (type : NodeType) :
    type.instantiate t'.supply = I.whole (type.instantiate t.supply) := by
  have hinputs := instances (I := I) (i := t.supply + 1)
    (fun hnew => Nat.le_add_right_of_le (h.le_supply hnew)) type.inputs .input
  have houtputs := instances (I := I) (i := t.supply + (1 + type.inputs.length))
    (fun hnew => Nat.le_add_right_of_le (h.le_supply hnew)) type.outputs .output
  rw [shift_add h.le_supply, ← h.supply] at hinputs houtputs
  rw [← Nat.add_assoc, ← Nat.add_assoc] at houtputs
  unfold NodeType.instantiate whole
  rw [hinputs, houtputs, node, ← h.supply]
  rfl

theorem addedNode (type : NodeType) (setup : NodeSetup) :
    t'.addedNode type setup = I.whole (t.addedNode type setup) := by
  unfold Tree.addedNode
  rw [h.instantiate]
  cases setup.name <;> rfl

theorem addNode (type : NodeType) (setup : NodeSetup) :
    I.Relates (t.addNode type setup).1 (t'.addNode type setup).1 := by
  have hnew : (t'.addedNode type setup).id ≠ I.frame := by
    rw [Tree.id_addedNode]
    rintro heq
    have := h.placed
    rw [← heq] at this
    exact Nat.lt_irrefl _ this
  rw [Tree.addNode_eq, Tree.addNode_eq]
  refine { h with nodes := ?_, untagged := ?_, placed := ?_, supply := ?_ }
  · rw [List.filter_append, List.map_append, h.nodes, List.map_append, List.filter_singleton,
      show I.shared (t'.addedNode type setup) = true by simp [shared, hnew], h.addedNode]
    rfl
  · intro n hn hframe
    rcases List.mem_append.mp hn with hn | hn
    · exact h.untagged n hn hframe
    · rw [List.mem_singleton.mp hn] at hframe
      exact absurd hframe hnew
  · exact Nat.lt_of_lt_of_le h.placed (Nat.le_add_right _ _)
  · show t'.supply + _ = I.shift (t.supply + _)
    rw [shift_add h.le_supply, h.supply]

/-- Edits of the boundary, after which the group nodes show it. -/
theorem redraw (hnodes : u.nodes = t.nodes) (hnodes' : u'.nodes = t'.nodes)
    (heditor : u'.editor = u.editor) (hlinks : List.Forall₂ I.Links u.links u'.links)
    (hboundary : u'.boundary = u.boundary.map I.port) (hactive : u.active = t.active)
    (hactive' : u'.active = t'.active) (hplaced : t'.supply ≤ u'.supply)
    (hsupply : u'.supply = I.shift u.supply) : I.Relates u.syncGroups u'.syncGroups := by
  have hshown : ∀ side, u'.shownInside side = (u.shownInside side).map I.port := by
    intro side
    unfold Tree.shownInside Tree.socketsOn
    rw [hboundary, List.filter_map, List.map_map, List.map_map]
    rfl
  have keep : ∀ {α : Type} (k : Node → α), (∀ n s, k { n with outputs := s } = k n) →
      (∀ n s, k { n with inputs := s } = k n) → ∀ n, k (u'.mirrored n) = k n := by
    intro α k ho hi n
    unfold Tree.mirrored
    split
    · exact ho _ _
    · split
      · exact hi _ _
      · rfl
  refine h.edit (q := fun _ => true) (r := fun _ => true) (g := u.mirrored) (k := u'.mirrored)
    (by rw [List.filter_true, Tree.nodes_syncGroups, hnodes])
    (by rw [List.filter_true, Tree.nodes_syncGroups, hnodes']) (fun _ => rfl)
    (keep _ (fun _ _ => rfl) fun _ _ => rfl) (keep _ (fun _ _ => rfl) fun _ _ => rfl) ?_ ?_ heditor
    hlinks hboundary ?_ ?_ hplaced hsupply
  · intro n hn
    have hg := h.ungrouped
    rw [← hn] at hg
    obtain ⟨hi, ho⟩ := Tree.ne_of_not_group hg
    simp [Tree.mirrored, bald, hi, ho]
  · intro n
    have hi := node_eq_group (I := I) (x := n.id) (y := .groupInput) h.ungrouped rfl
    have ho := node_eq_group (I := I) (x := n.id) (y := .groupOutput) h.ungrouped rfl
    unfold Tree.mirrored
    rw [id_whole]
    by_cases hn : n.id = .groupInput
    · rw [if_pos hn, if_pos (hi.mpr hn), hshown]
      rfl
    · rw [if_neg hn, if_neg (hn ∘ hi.mp)]
      by_cases hn : n.id = .groupOutput
      · rw [if_pos hn, if_pos (ho.mpr hn), hshown]
        rfl
      · rw [if_neg hn, if_neg (hn ∘ ho.mp)]
  · show u'.active = u.active.map I.node
    rw [hactive, hactive', h.active]
  · show u'.active ≠ some I.frame
    rw [hactive']
    exact h.inactive

theorem withSocket (side : Side) (name : String) (type : SocketType) :
    I.Relates (t.withSocket side name type) (t'.withSocket side name type) := by
  refine h.redraw rfl rfl h.editor h.links ?_ rfl rfl (Nat.le_succ _) ?_
  · show t'.boundary ++ _ = (t.boundary ++ _).map I.port
    rw [List.map_append, h.boundary, h.supply]
    rfl
  · show t'.supply + 1 = I.shift (t.supply + 1)
    rw [shift_add h.le_supply, h.supply]

theorem modifySocket {f : Socket → Socket}
    (hf : ∀ s, I.port (f s) = f (I.port s)) (y : SocketId) :
    I.Relates (t.modifySocket y f) (t'.modifySocket (I.socket y) f) := by
  refine h.redraw rfl rfl h.editor h.links ?_ rfl rfl (Nat.le_refl _) h.supply
  dsimp only
  rw [h.boundary, List.map_map, List.map_map]
  refine List.map_congr_left fun s _ => ?_
  simp only [Function.comp_apply, port, socket_beq]
  split
  · exact (hf s).symm
  · rfl

theorem stillFits {l l' : Link} (hl : I.Links l l') : t'.stillFits l' = t.stillFits l := by
  have hsocket : ∀ r : SocketRef, (t'.node? (I.ref r).node).bind (·.socket? (I.ref r).socket) =
      ((t.node? r.node).bind (·.socket? r.socket)).map I.port := by
    intro r
    show (t'.node? (I.node r.node)).bind (·.socket? (I.socket r.socket)) = _
    rcases rel_cases (h.node? r.node) with ⟨hn, hn'⟩ | ⟨n, n', hn, hn', htwins⟩
    · rw [hn, hn']
      rfl
    · rw [hn, hn']
      exact htwins.socket? r.socket
  unfold Tree.stillFits
  rw [hl.source, hl.target, hsocket, hsocket]
  cases (t.node? l.source.node).bind (·.socket? l.source.socket) with
  | none => rfl
  | some output =>
    cases (t.node? l.target.node).bind (·.socket? l.target.socket) <;> rfl

end

theorem touchesSocket {l l' : Link} (hl : I.Links l l') (y : SocketId) :
    l'.touchesSocket (I.socket y) = l.touchesSocket y := by
  simp [Link.touchesSocket, hl.source, hl.target, ref]

variable (h : I.Relates t t')
include h

theorem retyped (y : SocketId) (type : SocketType) :
    I.Relates (t.retyped y type) (t'.retyped (I.socket y) type) := by
  have hm := h.modifySocket (f := Tree.retype type) (fun _ => rfl) y
  refine hm.relink (forall₂_filter hm.links fun l l' hl => ?_)
  rw [touchesSocket hl, hm.stillFits hl]

theorem dropSocket (y : SocketId) : I.Relates (t.dropSocket y) (t'.dropSocket (I.socket y)) := by
  have hsocket := h.boundarySocket? y
  cases hs : t.boundarySocket? y with
  | none =>
    rw [hs] at hsocket
    rw [Tree.dropSocket_of_missing hs, Tree.dropSocket_of_missing hsocket]
    exact h
  | some s =>
    rw [hs] at hsocket
    rw [Tree.dropSocket_of_found hs, Tree.dropSocket_of_found hsocket]
    refine h.redraw rfl rfl h.editor ?_ ?_ rfl rfl (Nat.le_refl _) h.supply
    · exact forall₂_filter h.links fun l l' hl => by rw [touchesSocket hl]
    · dsimp only
      rw [h.boundary, List.filter_map]
      congr 1
      exact List.filter_congr fun s _ => by simp [port, bne]

theorem keepInputs (names : List String) :
    I.Relates (t.keepInputs names) (t'.keepInputs names) := by
  have drop : ∀ (ys : List SocketId) {t t' : Tree}, I.Relates t t' →
      I.Relates (ys.foldl Tree.dropSocket t) ((ys.map I.socket).foldl Tree.dropSocket t') := by
    intro ys
    induction ys with
    | nil => exact fun h => h
    | cons y ys ih => exact fun h => ih (h.dropSocket y)
  have hexcept : t'.inputsExcept names = (t.inputsExcept names).map I.socket := by
    unfold Tree.inputsExcept
    rw [h.socketsOn, List.filter_map, List.map_map, List.map_map]
    rfl
  unfold Tree.keepInputs
  rw [hexcept]
  exact drop _ h

theorem socketFor (hd : (t.boundary.map (·.id)).Nodup) (side : Side)
    (name : String) (type : SocketType) :
    Outcomes (fun y y' => y' = I.socket y)
        ((Tree.socketFor side name type t).1.mapError Fault.boundary)
        ((Tree.socketFor side name type t').1.mapError Fault.boundary) ∧
      I.Relates (Tree.socketFor side name type t).2 (Tree.socketFor side name type t').2 := by
  have hd' : (t'.boundary.map (·.id)).Nodup := by
    have hids : t'.boundary.map (·.id) = (t.boundary.map (·.id)).map I.socket := by
      rw [h.boundary, List.map_map, List.map_map]
      rfl
    rw [hids]
    exact hd.map fun a b hab => socket_inj.mp hab
  have hadjust : t'.adjustType type = t.adjustType type := by
    unfold Tree.adjustType
    rw [h.editor]
  rw [Tree.socketFor_run hd, Tree.socketFor_run hd', hadjust, h.boundaryNamed?]
  cases t.adjustType type with
  | error fault => exact ⟨.error (.refl _), h⟩
  | ok wanted =>
    dsimp only
    cases t.boundaryNamed? side name with
    | none => exact ⟨.ok (congrArg SocketId.mk h.supply), h.withSocket side name wanted⟩
    | some s =>
      refine ⟨.ok rfl, ?_⟩
      show I.Relates (if s.type = wanted then t else t.retyped s.id wanted)
        (if s.type = wanted then t' else t'.retyped (I.socket s.id) wanted)
      split
      · exact h
      · exact h.retyped s.id wanted

theorem setSocketDefault (y : SocketId) (value : Value) :
    Outcomes Pass.Whatever ((Tree.setSocketDefault y value t).1.mapError Fault.boundary)
        ((Tree.setSocketDefault (I.socket y) value t').1.mapError Fault.boundary) ∧
      I.Relates (Tree.setSocketDefault y value t).2
        (Tree.setSocketDefault (I.socket y) value t').2 := by
  have hsocket := h.boundarySocket? y
  cases hs : t.boundarySocket? y with
  | none =>
    rw [hs] at hsocket
    rw [Tree.setSocketDefault_of_missing hs, Tree.setSocketDefault_of_missing hsocket]
    exact ⟨.error ⟨rfl, rfl⟩, h⟩
  | some s =>
    rw [hs] at hsocket
    rw [Tree.setSocketDefault_run hs, Tree.setSocketDefault_run hsocket]
    have hsame : (I.port s).default = value.convert (I.port s).type ↔
        s.default = value.convert s.type := Iff.rfl
    by_cases hv : s.default = value.convert s.type
    · rw [if_pos hv, if_pos (hsame.mpr hv)]
      exact ⟨.ok trivial, h⟩
    · rw [if_neg hv, if_neg (mt hsame.mp hv)]
      exact ⟨.ok trivial, h.modifySocket (f := Tree.redefault _) (fun _ => rfl) y⟩

end Relates

end FormulaGraph.Insertion
