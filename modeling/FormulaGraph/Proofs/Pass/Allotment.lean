import FormulaGraph.Proofs.Pass.Desk

/-!
What the nodes that assemble values feed. No handle is on such a node, so it
feeds nothing but outputs. As long as no output is removed, these are the outputs
at the place that its tag tells.
-/

namespace FormulaGraph

open Run Relation

namespace Tag

def IsAssembler (tag : String) : Prop :=
  ∃ e ∈ assemblies, ∃ side place, tag = assembler e.1 side place

theorem IsAssembler.isTag {tag : String} (h : IsAssembler tag) : Tag.isTag tag = true := by
  obtain ⟨e, -, side, place, rfl⟩ := h
  exact isTag_assembler _ _ _

theorem IsAssembler.letter {tag : String} (h : IsAssembler tag) : letter? tag = some 'D' := by
  obtain ⟨e, -, side, place, rfl⟩ := h
  exact letter?_assembler _ _ _

end Tag

namespace Tree

variable {t t' : Tree} {h : Handle} {shrunk : Bool} {l : Link} {id : NodeId} {n : Node}

/-- Where a handle can be, be it of this pass or of an earlier one. Its node or
its socket may be gone; identities are not given out again. -/
structure Locates (t : Tree) (h : Handle) : Prop where
  output : h.kind = .output → h.node = .groupOutput ∧ h.socket.socket.index < t.supply ∧
    ∀ s, t.boundarySocket? h.socket.socket = some s → s.side = .output
  value : h.kind ≠ .output → h.node.index < t.supply ∧
    ∀ n, t.node? h.node = some n → ¬Tag.IsAssembler n.name

/-- A link from a node that assembles a value leads to the output that the tag
tells, if no output was removed. -/
def Allots (shrunk : Bool) (t : Tree) (l : Link) : Prop :=
  ∀ n, t.node? l.source.node = some n → ∀ e ∈ Tag.assemblies, ∀ side place,
    n.name = Tag.assembler e.1 side place → l.target.node = .groupOutput ∧
      (shrunk = false → t.boundaryIndex? l.target.socket = some place)

/-- Handles are where they can be, and assembled values are where they belong. -/
structure Arranged (shrunk : Bool) (given : List Handle) (t : Tree) : Prop where
  apt : t.Apt
  clean : t.Clean
  located : ∀ h ∈ given, t.Locates h
  allotted : ∀ l ∈ t.links, t.Allots shrunk l

theorem Descends.node (hd : Descends t t') (ht : t.Hosted) (ht' : t'.Hosted)
    (hid : id.index < t.supply) (hn : t'.node? id = some n) (htag : Tag.isTag n.name = true) :
    ∃ m, t.node? id = some m ∧ m.name = n.name := by
  have hg : n.id.isGroup = false := by
    rw [id_of_node? hn]
    exact ht'.grouped.not_group hn htag
  rcases hd.nodes n (mem_of_node? hn) hg with ⟨hnew, -⟩ | ⟨m, hm, heq, -, hname⟩
  · rw [id_of_node? hn] at hnew
    exact absurd hid (Nat.not_lt.mpr hnew)
  · have hnode := node?_of_mem ht.sane.nodes hm
    rw [heq, id_of_node? hn] at hnode
    exact ⟨m, hnode, hname⟩

theorem Locates.descends (h' : t.Locates h) (hd : Descends t t') (hs : t.supply ≤ t'.supply)
    (ht : t.Hosted) (ht' : t'.Hosted) : t'.Locates h where
  output := by
    intro hk
    obtain ⟨hnode, hbelow, hside⟩ := h'.output hk
    refine ⟨hnode, Nat.lt_of_lt_of_le hbelow hs, fun s hfound => ?_⟩
    obtain ⟨hmem, hid⟩ := mem_of_boundarySocket? hfound
    rcases hd.boundary s hmem with hnew | ⟨r, hr, hrid, hrside, -⟩
    · rw [hid] at hnew
      exact absurd hbelow (Nat.not_lt.mpr hnew)
    · rw [← hrside]
      refine hside r ?_
      rw [← hid, ← hrid]
      exact boundarySocket?_of_mem ht.grouped.distinct hr
  value := by
    intro hk
    obtain ⟨hbelow, hname⟩ := h'.value hk
    refine ⟨Nat.lt_of_lt_of_le hbelow hs, fun n hn ha => ?_⟩
    obtain ⟨m, hm, heq⟩ := hd.node ht ht' hbelow hn ha.isTag
    exact hname m hm (heq ▸ ha)

theorem Allots.descends {shrunk' : Bool} (h : t.Allots shrunk l) (hl : l ∈ t.links)
    (hd : Descends t t') (ht : t.Hosted) (ht' : t'.Hosted)
    (hplace : shrunk' = false → shrunk = false ∧ ∀ place,
      l.target.node = .groupOutput → t.boundaryIndex? l.target.socket = some place →
        t'.boundaryIndex? l.target.socket = some place) : t'.Allots shrunk' l := by
  intro n hn e he side place hname
  obtain ⟨k, hk, -⟩ := (ht.sane.ends l hl).1
  have hbelow : l.source.node.index < t.supply := by
    rw [← id_of_node? hk]
    exact ht.sane.nodesBelow k (mem_of_node? hk)
  obtain ⟨m, hm, heq⟩ := hd.node ht ht' hbelow hn (hname ▸ Tag.isTag_assembler _ _ _)
  obtain ⟨htarget, hat⟩ := h m hm e he side place (heq.trans hname)
  refine ⟨htarget, fun hs => ?_⟩
  obtain ⟨hs', hkept⟩ := hplace hs
  exact hkept place htarget (hat hs')

/-- Removing an input leaves the places of outputs. -/
theorem boundaryIndex?_dropSocket {x y : SocketId} {r s : Socket} (hg : t.Grouped)
    (hx : t.boundarySocket? x = some r) (hr : r.side = .input) (hy : t.boundarySocket? y = some s)
    (hs : s.side = .output) : (t.dropSocket x).boundaryIndex? y = t.boundaryIndex? y := by
  obtain ⟨hrmem, rfl⟩ := mem_of_boundarySocket? hx
  obtain ⟨hsmem, rfl⟩ := mem_of_boundarySocket? hy
  have other : ∀ k ∈ t.boundary, k.side = .output → k.id ≠ r.id := by
    intro k hk hside heq
    rw [List.inj_on_of_nodup_map hg.distinct hk hrmem heq, hr] at hside
    cases hside
  have hboundary : (t.dropSocket r.id).boundary = t.boundary.filter (·.id != r.id) := by
    rw [dropSocket_of_found hx]
    rfl
  have hfound : (t.dropSocket r.id).boundarySocket? s.id = some s := by
    refine boundarySocket?_of_mem (hboundary ▸ hg.distinct.sublist (List.filter_sublist.map _)) ?_
    rw [hboundary]
    exact List.mem_filter.mpr ⟨hsmem, by simpa using other s hsmem hs⟩
  have hside : (t.dropSocket r.id).socketsOn .output = t.socketsOn .output := by
    unfold socketsOn
    rw [hboundary, List.filter_filter]
    refine List.filter_congr fun k hk => ?_
    cases hk' : k.side with
    | input => rfl
    | output => simpa using other k hk hk'
  unfold boundaryIndex?
  rw [hfound, hy, Option.bind_some, Option.bind_some, hs, hside]

end Tree

namespace Pass

variable {given : List Handle} {scope : Scope} {shrunk : Bool} {p q : Pass} {a : Action}
  {h : Handle}
  {l : Link}

structure Arranged (shrunk : Bool) (given : List Handle) (p : Pass) : Prop
    extends p.tree.Arranged shrunk given where
  viable : p.Viable

def Scope.any : Scope := ⟨fun _ => True, fun r => r.node = .groupOutput, fun _ _ _ => True⟩

/-- The links that a move makes: from handles, or to an output from the node that
assembles its value. -/
theorem Moves.links (hm : Moves given scope p q) (hl : l ∈ q.tree.links) : l ∈ p.tree.links ∨
    (∃ g, Known given p g ∧ g.kind ≠ .output ∧ l.source = g.socket) ∨
    scope.assigned l.target ∧ ∃ e ∈ Tag.assemblies, ∃ place,
      p.index.lookup (Tag.assembler e.1 .output place) = some l.source.node ∧
      p.tree.boundaryIndex? l.target.socket = some place := by
  cases hm with
  | note | give | again => exact .inl hl
  | work _ _ _ hworks => exact (hworks.links l hl).imp_right .inl
  | @ask side name type within =>
    rcases Tree.socketFor_cases (t := p.tree) side name type with heq | ⟨s, wanted, -, heq⟩ |
      ⟨-, wanted, heq⟩ <;> rw [heq] at hl
    · exact .inl hl
    · exact .inl (List.mem_filter.mp hl).1
    · exact .inl hl
  | store _ _ =>
    dsimp only at hl
    rw [Tree.links_setSocketDefault] at hl
    exact .inl hl
  | release _ _ => exact .inl (List.mem_filter.mp hl).1
  | @feed source target within supplied =>
    dsimp only at hl
    rcases Tree.reconnect_outcome source target p.tree with ⟨fault, t, heq, -, hsub, -⟩ |
        ⟨-, heq⟩ <;>
      rw [heq] at hl
    · exact .inl (hsub hl)
    · rcases List.mem_append.mp hl with hl | hl
      · exact .inl (List.mem_filter.mp hl).1
      · cases List.mem_singleton.mp hl
        exact .inr (supplied.imp_right fun hs => ⟨within, hs⟩)

theorem Given.locates (hg : Given p h) (hp : p.Viable) : p.tree.Locates h where
  output := by
    intro hk
    have hnumeric := hg.numeric
    rw [hk] at hnumeric
    cases hnumeric
  value := by
    intro _
    obtain ⟨m, hm, hname, -⟩ := hg.node hp
    refine ⟨?_, fun n hn ha => ?_⟩
    · rw [← Tree.id_of_node? hm]
      exact hp.hosted.sane.nodesBelow m (Tree.mem_of_node? hm)
    · cases hm.symm.trans hn
      obtain ⟨e, he, heq⟩ := List.mem_map.mp hname
      exact (hp.entries e he).letter.1 (heq ▸ ha.letter)

theorem Action.Gives.locates (hg : a.Gives p q h) (hq : q.Viable) : q.tree.Locates h := by
  cases hg with
  | result given => exact given.locates hq
  | input eq kind_eq value bounds type_eq found typed =>
    obtain ⟨i, hi, -, hplain⟩ := hq.hosted.grouped.input
    refine ⟨fun hk => absurd (kind_eq ▸ hk) value, fun _ => ?_⟩
    rw [bounds.node]
    refine ⟨Nat.lt_of_lt_of_le (by decide) hq.hosted.two_le_supply, fun n hn ha => ?_⟩
    cases hi.symm.trans hn
    rw [ha.isTag] at hplain
    cases hplain
  | output eq kind_eq bounds type_eq found typed =>
    obtain ⟨s, hs, hside, -⟩ := bounds.socket
    obtain ⟨hmem, hid⟩ := Tree.mem_of_boundarySocket? hs
    refine ⟨fun _ => ⟨bounds.node, ?_, fun r hr => ?_⟩, fun hk => absurd kind_eq hk⟩
    · rw [← hid]
      exact hq.hosted.grouped.below hq.hosted.sane hmem
    · cases hs.symm.trans hr
      exact hside

namespace Arranged

variable (ha : Arranged shrunk given p)
include ha

theorem known (hk : Known given p h) : p.tree.Locates h := by
  rcases hk with hk | ⟨e, he, hh⟩
  · exact ha.located h hk
  · exact Given.locates ⟨⟨e, he, hh⟩, (ha.viable.entries e he).numeric h hh⟩ ha.viable

theorem move (hm : Moves given .any p q) : Arranged shrunk given q := by
  have hq := ha.viable.move hm
  obtain ⟨hd, hsupply⟩ := Amends.descends_steps hm.steps
  have locates : ∀ {g}, p.tree.Locates g → q.tree.Locates g := fun hg =>
    hg.descends hd hsupply ha.viable.hosted hq.hosted
  refine ⟨⟨hm.apt ha.viable ha.apt, hm.clean ha.viable (fun _ hr => hr) ha.clean,
    fun h hh => locates (ha.located h hh), fun l hl => ?_⟩, hq⟩
  rcases hm.links hl with hold | ⟨g, hg, hkind, hsource⟩ | ⟨htarget, e, he, place, hindex, hplace⟩
  · exact (ha.allotted l hold).descends hold hd ha.viable.hosted hq.hosted fun hs =>
      ⟨hs, fun place _ hat => (Gains.move hm).retains.place _ place hat⟩
  · intro n hn e he side place hname
    rw [hsource] at hn
    exact absurd ⟨e, he, side, place, hname⟩ (((locates (ha.known hg)).value hkind).2 n hn)
  · intro n hn e' he' side place' hname
    -- the name of the node has not changed since it was found by its tag
    obtain ⟨-, m, hm', hfound⟩ := ha.viable.found _ _ hindex
    have hbelow : l.source.node.index < p.tree.supply := by
      rw [← Tree.id_of_node? hm']
      exact ha.viable.hosted.sane.nodesBelow m (Tree.mem_of_node? hm')
    obtain ⟨k, hk, heq⟩ := hd.node ha.viable.hosted hq.hosted hbelow hn
      (hname ▸ Tag.isTag_assembler _ _ _)
    cases hm'.symm.trans hk
    obtain ⟨-, -, rfl⟩ := Tag.assembler_injective he he' (hfound.symm.trans (heq.trans hname))
    exact ⟨htarget, fun _ => (Gains.move hm).retains.place _ place hplace⟩

theorem runs (hm : Runs given .any p q) : Arranged shrunk given q := by
  induction hm with
  | refl => exact ha
  | tail _ hmove ih => exact ih.move hmove

end Arranged

theorem Action.within_any (hp : ∀ h ∈ a.handles, p.tree.Locates h) : a.Within .any p := by
  cases a with
  | input => exact ⟨fun _ _ => trivial, fun _ _ _ _ => trivial⟩
  | output => exact fun _ _ => trivial
  | assign target value =>
    intro hk
    cases value with
    | handle h => exact ((hp target List.mem_cons_self).output hk).1
    | literal l => exact ⟨rfl, fun _ _ _ _ _ _ _ _ => trivial⟩
  | _ => exact fun _ _ => trivial

namespace Desk

variable {d : Desk} {actions : List Action} {t : Tree}

def resume (t : Tree) (given : List Handle) : Desk := ⟨Pass.start t, given⟩

theorem arranged_act (hd : Arranged shrunk d.given d.pass) (ho : ∀ h ∈ a.handles, h ∈ d.given) :
    Arranged shrunk (d.act a).given (d.act a).pass := by
  have hw : a.Within .any d.pass := Action.within_any fun h hh => hd.located h (ho h hh)
  obtain ⟨hruns, hgives, -⟩ := a.behaves (fun g hg => .inl (ho g hg)) hw hd.viable
  rw [← a.perform_eq] at hruns hgives
  have hq := hd.runs hruns
  refine { hq with located := fun h hh => ?_ }
  rcases List.mem_append.mp hh with hnew | hold
  · unfold Action.gives at hnew
    split at hnew
    · next handles hok => exact (hgives handles hok h hnew).locates hq.viable
    · cases hnew
  · exact hq.located h hold

theorem arranged_acts (hd : Arranged shrunk d.given d.pass) (ho : d.Owns actions) :
    Arranged shrunk (d.acts actions).given (d.acts actions).pass := by
  induction actions generalizing d with
  | nil => exact hd
  | cons a actions ih => exact ih (arranged_act hd ho.1) ho.2

end Desk

end Pass

end FormulaGraph
