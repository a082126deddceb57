import FormulaGraph.Proofs.Pass.Moves

/-!
Work on the node of one tag: getting it, wiring its inputs, and looking after
its looks. Wiring may fail, but not because an operand is of a kind that no
input takes.
-/

namespace FormulaGraph

open Run Relation

/-- Whether a fault says that an operation was given the wrong operands, or that
the editor does not have it. -/
def Fault.rejects (fault : Fault) : Bool :=
  [.type, .arity, .index, .unavailable].contains fault.faultClass

theorem Fault.not_rejects_link (fault : LinkFault) : (Fault.link fault).rejects = false := by
  cases fault <;> rfl

namespace Tree

variable {t : Tree} {a b : SocketRef} {id : NodeId} {n : Node}

/-- A link that is refused leaves every input with what fed it; one that is made
replaces what fed its end. -/
theorem reconnect_outcome (a b : SocketRef) (t : Tree) :
    (∃ fault t', reconnect a b t = (.error fault, t') ∧ t' = { t with links := t'.links } ∧
      t'.links ⊆ t.links ∧ ∀ y, t'.feedOf? y = t.feedOf? y) ∨
    (t.disconnect b.socket).linkFault? a b = none ∧
      reconnect a b t = (.ok (), (t.disconnect b.socket).addLink a b) := by
  rw [reconnect_run]
  cases hf : (t.disconnect b.socket).linkFault? a b with
  | none => exact .inr ⟨rfl, rfl⟩
  | some fault =>
    refine .inl ⟨fault, _, rfl, rfl, ?_, fun y => ?_⟩
    · intro l hl
      rcases List.mem_append.mp hl with hl | hl <;> exact (List.mem_filter.mp hl).1
    · show (((t.disconnect b.socket).links ++ _).find? _) = _
      rw [List.find?_append]
      change ((t.disconnect b.socket).feedOf? y).or _ = _
      rw [feedOf?_disconnect, List.find?_filter]
      by_cases hy : y = b.socket
      · subst hy
        rw [if_pos rfl, Option.none_or]
        refine congrArg (List.find? · t.links) ?_
        funext l
        by_cases hl : l.target.socket = b.socket <;> simp [hl]
      · rw [if_neg hy]
        refine Option.or_eq_left_of_none (List.find?_eq_none.mpr fun l _ => ?_)
        by_cases hl : l.target.socket = b.socket
        · simp [hl, Ne.symm hy]
        · simp [hl]

theorem links_reconnect {l : Link} (hl : l ∈ (reconnect a b t).2.links) :
    l ∈ t.links ∨ l.source = a ∧ l.target = b := by
  rcases reconnect_outcome a b t with ⟨fault, t', heq, -, hsub, -⟩ | ⟨-, heq⟩
  · rw [heq] at hl
    exact .inl (hsub hl)
  · rw [heq] at hl
    rcases List.mem_append.mp hl with hl | hl
    · exact .inl (List.mem_filter.mp hl).1
    · cases List.mem_singleton.mp hl
      exact .inr ⟨rfl, rfl⟩

theorem nodes_reconnect (a b : SocketRef) (t : Tree) : (reconnect a b t).2.nodes = t.nodes := by
  rcases reconnect_outcome a b t with ⟨fault, t', heq, ht', -⟩ | ⟨-, heq⟩
  · rw [heq, ht']
  · rw [heq]
    rfl

namespace Apt

variable {t' : Tree}

variable (h : t.Apt)
include h

theorem of_nodes (hn : t'.nodes = t.nodes) : t'.Apt := fun n hm => h n (hn ▸ hm)

theorem modifyNode {f : Node → Node} (hf : ∀ n : Node, n.Apt → (f n).Apt) :
    (t.modifyNode id f).Apt := by
  intro n hn
  obtain ⟨m, hm, rfl⟩ := List.mem_map.mp hn
  split
  · exact hf m (h m hm)
  · exact h m hm

theorem removeNode (id : NodeId) : (t.removeNode id).Apt := by
  cases hg : id.isGroup with
  | true =>
    rw [Tree.removeNode, if_pos hg]
    exact h
  | false =>
    intro n hn
    rw [removeNode_eq hg] at hn
    obtain ⟨m, hm, rfl⟩ := List.mem_map.mp hn
    exact h m (List.mem_filter.mp hm).1

theorem addNode {tag : String} {type : NodeType} {setup : NodeSetup}
    (hn : setup.name = some tag) (hs : Tag.Suits tag type setup.properties) :
    (t.addNode type setup).1.Apt := by
  intro n hn'
  rw [addNode_eq] at hn'
  rcases List.mem_append.mp hn' with hn' | hn'
  · exact h n hn'
  · cases List.mem_singleton.mp hn'
    unfold addedNode
    rw [hn]
    refine hs.settle fun hfixed => ?_
    rw [hs.fixed hfixed]
    rfl

theorem framedTree (id : NodeId) (label : String) (members : List NodeId) :
    (Pass.framedTree t id label members).Apt := by
  have enclose : ∀ (roots : List NodeId) (u : Tree), u.Apt →
      (roots.foldl (fun u root => u.setParent id root) u).Apt := by
    intro roots
    induction roots with
    | nil => exact fun _ h => h
    | cons root roots ih => exact fun u h => ih _ (h.modifyNode fun _ hn => hn)
  exact enclose _ _ (h.modifyNode fun _ hn => hn)

theorem wires {t' : Tree} {S : Nat → Prop} (hw : Wires S id t t') (hs : t.Sane)
    (hn : t.node? id = some n) : t'.Apt := by
  intro n' hn'
  rcases hw.node_cases hs hn hn' with ⟨-, hr⟩ | ⟨-, hold⟩
  · unfold Node.Apt
    rw [hr.shell]
    exact h n (mem_of_node? hn)
  · exact h n' hold

end Apt

theorem apt_empty (editor : Editor) : (empty editor).Apt := by
  intro n hn
  rcases List.mem_cons.mp hn with rfl | hn
  · exact Tag.suits_of_plain (by decide) fun hf => (by cases hf)
  · rw [List.mem_singleton.mp hn]
    exact Tag.suits_of_plain (by decide) fun hf => (by cases hf)

theorem untouched_addedNode (hs : t.Sane) {type : NodeType} {setup : NodeSetup} {i : Nat}
    {s : Socket} {spec : SocketSpec} (hi : (t.addedNode type setup).inputs[i]? = some s)
    (hspec : (t.addedNode type setup).type.inputs[i]? = some spec) :
    (t.addNode type setup).1.feedOf? s.id = none ∧ s.default = spec.default := by
  have hinputs : (t.addedNode type setup).inputs =
      SocketSpec.instances type.inputs .input (t.supply + 1) := by
    unfold addedNode
    cases setup.name <;> rfl
  have htype : (t.addedNode type setup).type = type := by
    unfold addedNode
    cases setup.name <;> rfl
  rw [htype] at hspec
  rw [hinputs, SocketSpec.instances, List.getElem?_mapIdx, hspec] at hi
  cases hi
  rw [addNode_eq]
  exact ⟨feedOf?_of_supply_le hs (show t.supply ≤ t.supply + 1 + i by omega), rfl⟩

namespace Clean

variable {t' : Tree} (h : t.Clean)
include h

theorem of_inputs (hn : ∀ n' ∈ t'.nodes, Tag.isTag n'.name = true →
    ∃ n ∈ t.nodes, n.name = n'.name ∧ n.type = n'.type ∧ n.inputs = n'.inputs)
    (hl : t'.links ⊆ t.links) : t'.Clean := by
  intro n' hn' i s spec hi hspec hspares
  obtain ⟨n, hmem, hname, htype, hinputs⟩ := hn n' hn' hspares.call.isTag
  obtain ⟨hfeed, hdefault⟩ := h n hmem i s spec (hinputs ▸ hi) (htype ▸ hspec)
    (hname ▸ htype ▸ hspares)
  refine ⟨List.find?_eq_none.mpr fun l hmem' => ?_, hdefault⟩
  exact List.find?_eq_none.mp hfeed l (hl hmem')

theorem of_nodes (hn : t'.nodes = t.nodes) (hl : t'.links ⊆ t.links) : t'.Clean :=
  h.of_inputs (fun n' hn' _ => ⟨n', hn ▸ hn', rfl, rfl, rfl⟩) hl

theorem modifyNode {f : Node → Node}
    (hf : ∀ n : Node, (f n).name = n.name ∧ (f n).type = n.type ∧ (f n).inputs = n.inputs) :
    (t.modifyNode id f).Clean := by
  refine h.of_inputs (fun n' hn' _ => ?_) fun _ hl => hl
  obtain ⟨n, hn, rfl⟩ := List.mem_map.mp hn'
  refine ⟨n, hn, ?_⟩
  split
  · exact ⟨(hf n).1.symm, (hf n).2.1.symm, (hf n).2.2.symm⟩
  · exact ⟨rfl, rfl, rfl⟩

theorem of_flat (hf : t'.flat = t.flat) : t'.Clean := by
  refine h.of_inputs (fun n' hn' _ => ?_) (by rw [links_of_flat hf]; exact fun _ hl => hl)
  have hmem : n'.orphan ∈ t.flat.nodes := hf ▸ List.mem_map_of_mem hn'
  obtain ⟨n, hn, heq⟩ := List.mem_map.mp hmem
  refine ⟨n, hn, ?_, ?_, ?_⟩
  · exact show n.orphan.name = n'.orphan.name by rw [heq]
  · exact show n.orphan.type = n'.orphan.type by rw [heq]
  · exact show n.orphan.inputs = n'.orphan.inputs by rw [heq]

theorem removeNode (id : NodeId) : (t.removeNode id).Clean := by
  cases hg : id.isGroup with
  | true =>
    rw [Tree.removeNode, if_pos hg]
    exact h
  | false =>
    rw [removeNode_eq hg]
    refine h.of_inputs (fun n' hn' _ => ?_) (List.filter_subset_self _)
    obtain ⟨n, hn, rfl⟩ := List.mem_map.mp hn'
    exact ⟨n, (List.mem_filter.mp hn).1, rfl, rfl, rfl⟩

theorem addNode (hs : t.Sane) (type : NodeType) (setup : NodeSetup) :
    (t.addNode type setup).1.Clean := by
  intro n hn i s spec hi hspec hspares
  rw [addNode_eq] at hn
  rcases List.mem_append.mp hn with hn | hn
  · rw [addNode_eq]
    exact h n hn i s spec hi hspec hspares
  · cases List.mem_singleton.mp hn
    exact untouched_addedNode hs hi hspec

theorem wires {S : Nat → Prop} (hw : Wires S id t t') (hs : t.Sane)
    (hn : t.node? id = some n) (hS : ∀ i, S i → ¬Tag.Spares n.name n.type i) : t'.Clean := by
  intro n' hn' i s spec hi hspec hspares
  rcases hw.node_cases hs hn hn' with ⟨-, hr⟩ | ⟨hid, hold⟩
  · rw [hr.shell] at hspec hspares
    have hother : ¬S i := fun hSi => hS i hSi hspares
    rw [hr.others i hother] at hi
    rw [hw.fed_other hs hn hi hother]
    exact h n (mem_of_node? hn) i s spec hi hspec hspares
  · have hs' : s.id ∈ n'.inputIds := List.mem_map_of_mem (List.mem_of_getElem? hi)
    rw [hw.feeds s.id fun m hm hx => hid (hs.owner _ _ n' m _ (node?_of_mem hs.nodes hold) hm
      (List.mem_append_left _ hs') (List.mem_append_left _ hx))]
    exact h n' hold i s spec hi hspec hspares

end Clean

theorem clean_empty (editor : Editor) : (empty editor).Clean := by
  intro n hn i s spec _ _ hspares
  have htag := hspares.call.isTag
  rcases List.mem_cons.mp hn with rfl | hn
  · cases htag
  · rw [List.mem_singleton.mp hn] at htag
    cases htag

namespace Elsewhere

variable {tag : String} {y : SocketId} {t' : Tree} (h : t.Elsewhere tag y)
include h

theorem of_nodes (hs : t.supply ≤ t'.supply)
    (hn : ∀ n' ∈ t'.nodes, (∃ n ∈ t.nodes, n'.name = n.name ∧ n'.inputIds = n.inputIds) ∨
      ∀ x ∈ n'.inputIds, t.supply ≤ x.index) : t'.Elsewhere tag y := by
  refine ⟨Nat.lt_of_lt_of_le h.below hs, fun n' hn' hname hy => ?_⟩
  rcases hn n' hn' with ⟨n, hmem, hsame, hids⟩ | hnew
  · exact h.other n hmem (hsame ▸ hname) (hids ▸ hy)
  · exact absurd h.below (Nat.not_lt.mpr (hnew y hy))

theorem of_local (hl : t.Local id t') (hs : t.Sane) (hn : t.node? id = some n)
    (hname : n.name = tag) : t'.feedOf? y = t.feedOf? y ∧ t'.Elsewhere tag y := by
  constructor
  · refine hl.feeds y fun m hm => ?_
    cases hn.symm.trans hm
    exact h.other n (mem_of_node? hn) hname
  · refine h.of_nodes hl.supply fun n' hn' => .inl ?_
    have hnode := node?_of_mem (hl.ids ▸ hs.nodes) hn'
    by_cases hid : n'.id = id
    · obtain ⟨m, hm, halike, hsame, -⟩ := hl.own n hn
      rw [← hid, hnode] at hm
      cases hm
      exact ⟨n, mem_of_node? hn, hsame, halike.inputs⟩
    · rw [hl.others _ hid] at hnode
      exact ⟨n', mem_of_node? hnode, rfl, rfl⟩

theorem addNode (type : NodeType) (setup : NodeSetup) :
    (t.addNode type setup).1.feedOf? y = t.feedOf? y ∧
    (t.addNode type setup).1.Elsewhere tag y := by
  rw [addNode_eq]
  refine ⟨rfl, h.of_nodes (Nat.le_add_right _ _) fun n hn => ?_⟩
  rcases List.mem_append.mp hn with hn | hn
  · exact .inl ⟨n, hn, rfl, rfl⟩
  · cases List.mem_singleton.mp hn
    refine .inr fun x hx => ?_
    have hx : x ∈ (t.addedNode type setup).socketIds := List.mem_append_left _ hx
    rw [socketIds_addedNode] at hx
    obtain ⟨i, hi, rfl⟩ := List.mem_map.mp hx
    exact Nat.le_of_succ_le (List.mem_range'_1.mp hi).1

theorem of_flat (hf : t'.flat = t.flat) : t'.Elsewhere tag y := by
  refine h.of_nodes (Nat.le_of_eq (show t.flat.supply = t'.flat.supply by rw [hf]))
    fun n hn => .inl ?_
  have hmem : n.orphan ∈ t.flat.nodes := hf ▸ List.mem_map_of_mem hn
  obtain ⟨m, hm, heq⟩ := List.mem_map.mp hmem
  exact ⟨m, hm, (show m.orphan.name = n.orphan.name by rw [heq]).symm,
    (Node.alike_of_orphan heq).inputs.symm⟩

end Elsewhere

end Tree

namespace Pass

variable {roster : List Handle} {scope : Scope} {p q : Pass} {tag : String} {id : NodeId}
  {type : NodeType} {settings : List (String × String)}

theorem Viable.not_apart (hp : p.Viable) (hi : p.index.lookup tag = some id) :
    ¬p.tree.Apart tag id := by
  obtain ⟨-, n, hn, hname⟩ := hp.found tag id hi
  rintro ⟨m, hm, hne⟩
  rw [hn] at hm
  cases hm
  exact hne hname

/-- An edit of the node of a tag and of the links into it. -/
theorem Works.of_local (hp : p.Viable) (hi : p.index.lookup tag = some id)
    (hm : q.Rooted ∧ ReflTransGen Tree.Amends p.tree q.tree) (hl : p.tree.Local id q.tree)
    (hx : q.index = p.index)
    (hrest : q.counts = p.counts ∧ q.literals = p.literals ∧ q.results = p.results)
    (ha : p.tree.Apt → q.tree.Apt) (hc : p.tree.Clean → q.tree.Clean)
    (hlinks : ∀ l ∈ q.tree.links, l ∈ p.tree.links ∨
      ∃ g, Known roster p g ∧ g.kind ≠ .output ∧ l.source = g.socket) : Works roster tag p q where
  steps := hm.2
  rooted := hm.1
  keeps := hl.keeps hp.hosted.sane (hp.not_apart hi)
  boundary := hl.boundary
  editor := hl.editor
  others := fun _ _ => by rw [hx]
  own := by
    intro id' hi'
    rw [hx, hi] at hi'
    cases hi'
    obtain ⟨-, n, hn, hname⟩ := hp.found tag id hi
    obtain ⟨n', hn', -, hname', -⟩ := hl.own n hn
    exact ⟨n', hn', hname'.trans hname⟩
  apt := ha
  clean := hc
  feeds := by
    intro _ _ y hy
    obtain ⟨-, n, hn, hname⟩ := hp.found tag id hi
    exact hy.of_local hl hp.hosted.sane hn hname
  links := hlinks
  counts := hrest.1
  literals := hrest.2.1
  results := hrest.2.2

theorem wires_reconnect {t : Tree} {n : Node} {slot : Nat} {input : Socket}
    (hn : t.node? id = some n) (hi : n.inputs[slot]? = some input) (a : SocketRef) :
    t.Wires (· = slot) id (Tree.reconnect a ⟨id, input.id⟩ t).2 := by
  rcases Tree.reconnect_outcome a ⟨id, input.id⟩ t with ⟨fault, t', heq, ht', -, hfeeds⟩ | ⟨-, heq⟩
  · rw [heq]
    dsimp only
    rw [ht'] at hfeeds ⊢
    exact wires_of_links hn hi (Nat.le_refl _) fun y _ => hfeeds y
  · rw [heq]
    exact wires_reconnected hn hi a

theorem links_removeNode {t : Tree} {l : Link} (hl : l ∈ (t.removeNode id).links) :
    l ∈ t.links := by
  cases hg : id.isGroup with
  | true =>
    rwa [Tree.removeNode, if_pos hg] at hl
  | false =>
    rw [Tree.removeNode_eq hg] at hl
    exact (List.mem_filter.mp hl).1

/-- The node of a tag is found, or made in place of one of another type. -/
theorem nodeFor_effect (hp : p.Viable) (hf : Tag.Suits tag type settings)
    (hrun : nodeFor tag type settings p = (.ok id, q)) :
    (p.tree.Apt → q.tree.Apt) ∧ (p.tree.Clean → q.tree.Clean) ∧
      (∀ l ∈ q.tree.links, l ∈ p.tree.links) ∧
      (p.tree.Apt → Tag.Definite tag → ∀ y, p.tree.Elsewhere tag y →
        q.tree.feedOf? y = p.tree.feedOf? y ∧ q.tree.Elsewhere tag y) := by
  have made_apt : ∀ {r : Pass}, r.tree.Apt → (r.made tag type settings).tree.Apt :=
    fun h => h.addNode rfl hf
  have made_links : ∀ {r : Pass} {l : Link}, l ∈ (r.made tag type settings).tree.links →
      l ∈ r.tree.links := by
    intro r l hl
    rwa [made, Tree.addNode_eq] at hl
  obtain ⟨n, -, hn, htype, rfl⟩ | ⟨r, hr, -, -, rfl⟩ := nodeFor_cases hrun
  · refine ⟨fun ha m hm => ?_, fun hc => hc.modifyNode fun _ => ⟨rfl, rfl, rfl⟩, fun l hl => hl,
      fun _ _ y hy => ⟨rfl, ?_⟩⟩
    · obtain ⟨k, hk, rfl⟩ := List.mem_map.mp hm
      split
      · next hid =>
        have hkn := Tree.node?_of_mem hp.hosted.sane.nodes hk
        rw [beq_iff_eq.mp hid, hn] at hkn
        cases hkn
        -- settings are brought up to date only where the type has some
        refine (ha n hk).settle fun hfixed => ?_
        have hnone : settings = [] := hf.fixed (htype ▸ hfixed)
        subst hnone
        exact (ha n hk).fixed hfixed
      · exact ha k hk
    · refine hy.of_nodes (Nat.le_refl _) fun m hm => .inl ?_
      obtain ⟨k, hk, rfl⟩ := List.mem_map.mp hm
      exact ⟨k, hk, by split <;> rfl, by split <;> rfl⟩
  · obtain ⟨rfl, -⟩ | ⟨old, hi, hn, -⟩ | ⟨old, n, hi, hn, hne, rfl⟩ := hr
    · exact ⟨made_apt, fun hc => hc.addNode hp.hosted.sane _ _, fun l hl => made_links hl,
        fun _ _ y hy => hy.addNode _ _⟩
    · obtain ⟨-, m, hm, -⟩ := hp.found _ _ hi
      rw [hn] at hm
      cases hm
    · refine ⟨fun ha => made_apt (ha.removeNode old),
        fun hc => (hc.removeNode old).addNode (hp.hosted.sane.removeNode old) _ _,
        fun l hl => links_removeNode (made_links hl), fun ha hd => ?_⟩
      obtain ⟨-, m, hm, hname⟩ := hp.found _ _ hi
      rw [hn] at hm
      cases hm
      have hsuits : Tag.Suits tag n.type n.properties.entries := hname ▸ ha n (Tree.mem_of_node? hn)
      exact absurd (hsuits.type_eq hf hd) hne

/-- The node of a tag can be had if the editor has its type. -/
theorem nodeFor_works (hp : p.Viable) (ht : Tag.isTag tag = true) (hb : type.isBuilt = true)
    (ho : p.tree.editor.offers type = true) (hd : (settings.map Prod.fst).Nodup)
    (hf : Tag.Suits tag type settings) :
    ∃ id q, nodeFor tag type settings p = (.ok id, q) ∧ Opened tag type settings p id q ∧
      Works roster tag p q := by
  have hfound : ∀ id, p.index.lookup tag = some id →
      ∃ n, p.tree.node? id = some n ∧ n.name = tag := fun id hi => (hp.found tag id hi).2
  have make : ∀ {r : Pass}, r.tree.editor = p.tree.editor →
      makeNode tag type settings r = (.ok ⟨r.tree.supply⟩, r.made tag type settings) := by
    intro r he
    rw [makeNode_run, if_pos (he ▸ ho)]
  have hremoved : ∀ old, (p.cleared tag old).tree.editor = p.tree.editor := fun old => by
    show (p.tree.removeNode old).editor = _
    unfold Tree.removeNode
    split <;> rfl
  obtain ⟨id, q, hrun⟩ : ∃ id q, nodeFor tag type settings p = (.ok id, q) := by
    rw [nodeFor_run]
    cases hi : p.index.lookup tag with
    | none => exact ⟨_, _, make rfl⟩
    | some old =>
      obtain ⟨n, hn, -⟩ := hfound old hi
      dsimp only
      rw [hn]
      dsimp only
      split
      · exact ⟨_, _, rfl⟩
      · exact ⟨_, _, make (hremoved old)⟩
  have hopened := nodeFor_opened hp.hosted.sane hp.hosted.grouped hfound ht hd hrun
  have hmakes := Makes.of_ok (S := fun _ => True) (N := fun _ _ => True)
    (makes_nodeFor tag hb settings) hp.rooted hrun
  obtain ⟨hapt, hclean, hlinks, hfeeds⟩ := nodeFor_effect hp hf hrun
  obtain ⟨hcounts, hliterals, hresults, -⟩ := hopened.rest
  obtain ⟨n, hn, hname, -⟩ := hopened.node
  refine ⟨id, q, hrun, hopened, hmakes.2, hmakes.1, hopened.keeps, hopened.boundary, hopened.editor,
    hopened.others, ?_, hapt, hclean, hfeeds, fun l hl => .inl (hlinks l hl), hcounts, hliterals,
    hresults⟩
  intro id' hi'
  rw [hopened.index] at hi'
  cases hi'
  exact ⟨n, hn, hname⟩

theorem activate_works (hp : p.Viable) (hi : p.index.lookup tag = some id) :
    Works roster tag p { p with tree := p.tree.setActive (some id) } :=
  .of_local hp hi ((makes_activate (X := fun _ => True) id p).edits trivial hp.rooted)
    (.setActive _) rfl ⟨rfl, rfl, rfl⟩
    (fun h => h.of_nodes rfl) (fun h => h.of_nodes rfl fun _ hl => hl) fun _ hl => .inl hl

/-- An edit of the looks of the node of a tag, or of the default of its output. -/
theorem touch_works {f : Node → Node} (hp : p.Viable) (hi : p.index.lookup tag = some id)
    (touch : Touch) (hf : touch.apply = f)
    (ha : ∀ n, (f n).properties = n.properties ∧ (f n).inputs = n.inputs) (constants : Nat) :
    Works roster tag p { p with tree := p.tree.modifyNode id f, constants } := by
  subst hf
  have hamend : Tree.Amends p.tree (p.tree.modifyNode id touch.apply) :=
    .touch id (hp.not_group hi) touch
  have hrooted := hp.rooted.amend hamend
  have hshell : ∀ n, (touch.apply n).name = n.name ∧ (touch.apply n).type = n.type ∧
      (touch.apply n).parent = n.parent := by
    intro n
    cases touch <;> exact ⟨rfl, rfl, rfl⟩
  have hid : ∀ n, (touch.apply n).id = n.id := by
    intro n
    cases touch <;> rfl
  refine .of_local hp hi ⟨⟨hrooted.supply, hrooted.index⟩, .single hamend⟩
    (.modifyNode hid (alike_touch touch) hshell) rfl ⟨rfl, rfl, rfl⟩ (fun h => ?_)
    (fun h => h.modifyNode fun n => ⟨(hshell n).1, (hshell n).2.1, (ha n).2⟩) fun _ hl => .inl hl
  refine h.modifyNode fun n hn => ?_
  unfold Node.Apt
  rw [(hshell n).1, (hshell n).2.1, (ha n).1]
  exact hn

/-- Nodes are put under the frame of a tag. -/
theorem enframe_works (hp : p.Viable) (hi : p.index.lookup tag = some id) (label : String)
    (members : List NodeId) : Works roster tag p { p with
      tree := framedTree p.tree id label members
      groups := (id, members) :: p.groups } := by
  obtain ⟨-, n, hn, hname⟩ := hp.found tag id hi
  have hflat := flat_framedTree p.tree id label members
  have hamend : Tree.Amends p.tree (framedTree p.tree id label members) :=
    .frame id (hp.not_group hi) (Tree.contains_iff.mpr ⟨n, hn⟩) label members
  have hrooted := hp.rooted.amend hamend
  have hlocal := local_placed p.tree id label members
  refine {
    steps := .single hamend
    rooted := ⟨hrooted.supply, hrooted.index⟩
    keeps := keeps_framedTree _ _ _ _ hp.hosted.sane (hp.not_apart hi)
    boundary := show (framedTree p.tree id label members).flat.boundary = _ by rw [hflat]; rfl
    editor := show (framedTree p.tree id label members).flat.editor = _ by rw [hflat]; rfl
    others := fun _ _ => rfl
    own := ?_
    apt := fun h => h.framedTree id label members
    clean := fun h =>
      (h.modifyNode (f := captioned label _) fun _ => ⟨rfl, rfl, rfl⟩).of_flat hflat
    feeds := fun _ _ y hy => ?_
    links := fun l hl => .inl ?_
    counts := rfl
    literals := rfl
    results := rfl }
  · intro id' hi'
    cases hi.symm.trans hi'
    obtain ⟨n', hn', ho⟩ := node?_framedTree p.tree id label members hn
    exact ⟨n', hn', (show n'.orphan.name = n.name by rw [ho]; rfl).trans hname⟩
  · obtain ⟨hfeed, hy⟩ := hy.of_local hlocal hp.hosted.sane hn hname
    refine ⟨?_, hy.of_flat hflat⟩
    rw [← hfeed]
    exact congrArg (List.find? _) (Tree.links_of_flat hflat)
  · have hlinks := Tree.links_of_flat hflat
    change l ∈ (framedTree p.tree id label members).links at hl
    rwa [hlinks] at hl

section Wiring

variable {slot : Nat} {operand : Operand}

/-- What wiring does, whether it succeeds or not: it changes the input alone. -/
theorem wire_effect (id : NodeId) (slot : Nat) (operand : Operand) (p : Pass) :
    ∃ t, (wire id slot operand p).2 = { p with tree := t } ∧ p.tree.Wires (· = slot) id t ∧
      ∀ l ∈ t.links, l ∈ p.tree.links ∨
        ∃ g, operand = .handle g ∧ g.kind ≠ .output ∧ l.source = g.socket := by
  have none : ∃ t, p = { p with tree := t } ∧ p.tree.Wires (· = slot) id t ∧
      ∀ l ∈ t.links, l ∈ p.tree.links ∨
        ∃ g, operand = .handle g ∧ g.kind ≠ .output ∧ l.source = g.socket :=
    ⟨p.tree, rfl, .refl, fun _ hl => .inl hl⟩
  cases hb : (p.tree.node? id).bind (·.inputs[slot]?) with
  | none =>
    rw [wire_missing hb]
    exact none
  | some input =>
    obtain ⟨n, hn, hinput⟩ := Option.bind_eq_some_iff.mp hb
    cases operand with
    | handle g =>
      rw [wire_handle hn hinput]
      split
      · exact none
      next hout =>
      split
      · exact none
      exact ⟨_, rfl, wires_reconnect hn hinput g.socket, fun l hl =>
        (Tree.links_reconnect hl).imp_right fun hnew => ⟨g, rfl, hout, hnew.1⟩⟩
    | literal l =>
      rw [wire_literal hn hinput]
      split
      · exact none
      next value _ =>
      have hcut := wires_disconnect hn hinput
      refine ⟨_, rfl, ?_, fun m hm => .inl ?_⟩ <;> unfold stocked at * <;> split at *
      · exact hcut
      · exact hcut.trans (wires_restored value _)
      · exact (List.mem_filter.mp hm).1
      · exact (List.mem_filter.mp hm).1

theorem wire_works (hp : p.Viable) (hi : p.index.lookup tag = some id)
    (hk : ∀ g, operand = .handle g → Known roster p g)
    (hs : ∀ n, p.tree.node? id = some n → ¬Tag.Spares tag n.type slot) :
    Works roster tag p (wire id slot operand p).2 := by
  have wires : Edits (fun _ => True) (fun _ _ => True) (wire id slot operand) :=
    makes_wire (fun _ => hp.not_group hi) slot operand
  have hmakes := (wires p).edits trivial hp.rooted
  obtain ⟨t, heq, hwires, hlinks⟩ := wire_effect id slot operand p
  rw [heq] at hmakes ⊢
  obtain ⟨-, n, hn, rfl⟩ := hp.found tag id hi
  refine .of_local hp hi hmakes hwires.toLocal rfl ⟨rfl, rfl, rfl⟩
    (fun h => h.wires hwires hp.hosted.sane hn) (fun h => h.wires hwires hp.hosted.sane hn ?_)
    fun l hl => (hlinks l hl).imp_right fun ⟨g, hg, hnew⟩ => ⟨g, hk g hg, hnew⟩
  rintro _ rfl
  exact hs n hn

/-- Inputs of nodes take every operand that functions accept. -/
theorem wire_fault {fault : Fault} (hp : p.Viable) (hi : p.index.lookup tag = some id)
    (hk : operand.kind.isNumeric = true) (h : (wire id slot operand p).1 = .error fault) :
    fault.rejects = false := by
  cases hb : (p.tree.node? id).bind (·.inputs[slot]?) with
  | none =>
    rw [wire_missing hb] at h
    cases h
    rfl
  | some input =>
    obtain ⟨n, hn, hinput⟩ := Option.bind_eq_some_iff.mp hb
    cases operand with
    | handle g =>
      have hout : g.kind ≠ .output := by
        intro hc
        change g.kind.isNumeric = true at hk
        rw [hc] at hk
        cases hk
      rw [wire_handle hn hinput, if_neg hout] at h
      split at h
      · cases h
      · rw [edit_reconnect] at h
        split at h <;> cases h
        exact Fault.not_rejects_link _
    | literal l =>
      have hnumeric : input.type.isNumeric = true := by
        refine (hp.equipped n (Tree.mem_of_node? hn)).numeric ?_ (List.mem_of_getElem? hinput)
        rw [Tree.id_of_node? hn]
        exact hp.not_group hi
      obtain ⟨value, hv⟩ : ∃ value, l.toValue? = some value := by
        cases l with
        | scalar | vector | boolean => exact ⟨_, rfl⟩
        | rotation | matrix => cases hk
      obtain ⟨w, hw⟩ := Value.exists_convert value hnumeric
      rw [wire_literal hn hinput, hv, Option.bind_some, hw] at h
      cases h

theorem wireAll_works {inputs : List (Nat × Operand)} (hp : p.Viable) (hnew : tag ∉ p.keys)
    (hi : p.index.lookup tag = some id) (hin : ∀ e ∈ inputs, Usable roster p e.2)
    (hs : ∀ n, p.tree.node? id = some n → ∀ e ∈ inputs, ¬Tag.Spares tag n.type e.1) :
    Works roster tag p (wireAll id inputs p).2 ∧ (wireAll id inputs p).2.index = p.index ∧
      ∀ fault, (wireAll id inputs p).1 = .error fault → fault.rejects = false := by
  induction inputs generalizing p with
  | nil => exact ⟨.refl hp roster tag, rfl, fun _ h => by cases h⟩
  | cons entry rest ih =>
    obtain ⟨slot, operand⟩ := entry
    have hu := hin _ List.mem_cons_self
    have hwork : Works roster tag p (wire id slot operand p).2 :=
      wire_works hp hi hu.known fun n hn => hs n hn _ List.mem_cons_self
    obtain ⟨t, heq, hwires, -⟩ := wire_effect id slot operand p
    have hindex : (wire id slot operand p).2.index = p.index := by rw [heq]
    rcases hrun : wire id slot operand p with ⟨fault | u, p₁⟩
    · have hall : wireAll id ((slot, operand) :: rest) p = (.error fault, p₁) := bind_of_error hrun
      rw [hrun] at hwork hindex
      rw [hall]
      refine ⟨hwork, hindex, fun f hf => ?_⟩
      cases hf
      exact wire_fault hp hi hu.numeric (by rw [hrun])
    · have hall : wireAll id ((slot, operand) :: rest) p = wireAll id rest p₁ := bind_of_ok hrun
      rw [hrun] at hwork hindex
      have hp₁ := hp.work (hp.found tag id hi).1 hnew hwork
      obtain ⟨hworks, hindex', hfault⟩ := ih hp₁ (by unfold keys; rw [hwork.results]; exact hnew)
        (hindex ▸ hi) (fun e he => (hin e (List.mem_cons_of_mem _ he)).mono (by rw [hwork.results]))
        (by
          obtain ⟨-, n, hn, -⟩ := hp.found tag id hi
          obtain ⟨n', hn', -, -, htype⟩ := hwires.own n hn
          rw [hrun] at heq
          cases heq
          intro m hm e he
          cases hn'.symm.trans hm
          rw [htype]
          exact hs n hn e (List.mem_cons_of_mem _ he))
      rw [hall]
      exact ⟨hwork.trans hworks, hindex'.trans hindex, hfault⟩

end Wiring

end Pass

end FormulaGraph
