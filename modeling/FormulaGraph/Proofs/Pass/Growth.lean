import FormulaGraph.Proofs.Pass.Nodes
import FormulaGraph.Proofs.Pass.Tags

/-!
A pass only grows: the nodes behind the results it has given are settled, and
no later step touches them. This says nothing about what the results stand for.
-/

namespace FormulaGraph

open Run

def Node.core (n : Node) : Node := { n with parent := none, label := "", position := .origin }

theorem Node.core_of_orphan {n m : Node} (h : n.orphan = m.orphan) : n.core = m.core :=
  show n.orphan.core = m.orphan.core by rw [h]

namespace Pass

def keys (p : Pass) : List String := p.results.map (·.1)

def Settled (p : Pass) (id : NodeId) : Prop :=
  id = .groupInput ∨ ∃ e ∈ p.results, ∃ h ∈ e.2, h.node = id

structure Sound (p : Pass) : Prop where
  sane : p.tree.Sane
  grouped : p.tree.Grouped
  found : ∀ tag id, p.index.lookup tag = some id →
    Tag.isTag tag = true ∧ ∃ n, p.tree.node? id = some n ∧ n.name = tag
  used : ∀ id ∈ p.used, ∃ n, p.tree.node? id = some n ∧ p.index.lookup n.name = some id ∧
    (n.name ∈ p.keys ∨ n.type = .frame ∧ Tag.letter? n.name = some 'G')
  settled : ∀ e ∈ p.results, ∀ h ∈ e.2, h.node = .groupInput ∨
    h.node ∈ p.used ∧ ∃ n, p.tree.node? h.node = some n ∧ n.name ∈ p.keys
  entries : ∀ e ∈ p.results, e.2 ≠ [] ∧ Tag.letter? e.1 ≠ some 'G' ∧
    (Tag.IsSeparation e.1 → e.2.length = 3)
  active : ∃ a, p.tree.active = some a ∧ (a = .groupInput ∨ a ∈ p.used)

structure Grows (p p' : Pass) : Prop where
  keeps : Tree.Keeps p.Settled p.tree p'.tree
  results : p.results <:+ p'.results
  used : p.used ⊆ p'.used
  cores : ∀ id ∈ p.used, ∀ n, p.tree.node? id = some n →
    ∃ n', p'.tree.node? id = some n' ∧ n'.core = n.core
  editor : p'.tree.editor = p.tree.editor
  boundary : p'.tree.boundary = p.tree.boundary
  counts : ∀ k, p.counts.get k ≤ p'.counts.get k
  literals : p.literals ≤ p'.literals

variable {p p' p'' : Pass} {tag : String} {id : NodeId}
  {type : NodeType} {settings : List (String × String)}

theorem settled_mono (h : p.results <:+ p'.results) (hs : p.Settled id) : p'.Settled id := by
  obtain hs | ⟨e, he, g, hg, hid⟩ := hs
  · exact .inl hs
  · exact .inr ⟨e, h.subset he, g, hg, hid⟩

namespace Grows

theorem refl : Grows p p where
  keeps := .refl
  results := List.suffix_refl _
  used := List.Subset.refl _
  cores := fun _ _ n hn => ⟨n, hn, rfl⟩
  editor := rfl
  boundary := rfl
  counts := fun _ => Nat.le_refl _
  literals := Nat.le_refl _

theorem settled (h : Grows p p') : p.Settled id → p'.Settled id := settled_mono h.results

theorem trans (h : Grows p p') (h' : Grows p' p'') : Grows p p'' where
  keeps := h.keeps.trans h'.keeps fun _ => h.settled
  results := h.results.trans h'.results
  used := List.Subset.trans h.used h'.used
  cores := by
    intro id hid n hn
    obtain ⟨n', hn', hc⟩ := h.cores id hid n hn
    obtain ⟨n'', hn'', hc'⟩ := h'.cores id (h.used hid) n' hn'
    exact ⟨n'', hn'', hc'.trans hc⟩
  editor := h'.editor.trans h.editor
  boundary := h'.boundary.trans h.boundary
  counts := fun k => Nat.le_trans (h.counts k) (h'.counts k)
  literals := Nat.le_trans h.literals h'.literals

end Grows

theorem Sound.withGroups (hp : p.Sound) (groups : List (NodeId × List NodeId)) :
    ({ p with groups } : Pass).Sound :=
  ⟨hp.sane, hp.grouped, hp.found, hp.used, hp.settled, hp.entries, hp.active⟩

theorem Grows.withGroups (h : Grows p p') (groups : List (NodeId × List NodeId)) :
    Grows p { p' with groups } :=
  ⟨h.keeps, h.results, h.used, h.cores, h.editor, h.boundary, h.counts, h.literals⟩

theorem settled_used (hp : p.Sound) (h : p.Settled id) : id = .groupInput ∨
    id ∈ p.used ∧ ∃ n, p.tree.node? id = some n ∧ n.name ∈ p.keys := by
  obtain h | ⟨e, he, g, hg, rfl⟩ := h
  · exact .inl h
  · exact hp.settled e he g hg

theorem node?_of_settled (hp : p.Sound) (h : p.Settled id) : ∃ n, p.tree.node? id = some n := by
  rcases settled_used hp h with rfl | ⟨-, n, hn, -⟩
  · obtain ⟨n, hn, -⟩ := hp.grouped.input
    exact ⟨n, hn⟩
  · exact ⟨n, hn⟩

theorem name_of_settled (hp : p.Sound) (h : p.Settled id) {n : Node}
    (hn : p.tree.node? id = some n) (tag : String) : n.name ≠ Tag.frameMark ++ tag := by
  intro hname
  rcases settled_used hp h with rfl | ⟨-, m, hm, hk⟩
  · obtain ⟨m, hm, -, htag⟩ := hp.grouped.input
    cases hn.symm.trans hm
    rw [hname, Tag.isTag_frame] at htag
    cases htag
  · cases hn.symm.trans hm
    obtain ⟨e, he, heq⟩ := List.mem_map.mp hk
    refine (hp.entries e he).2.1 ?_
    rw [heq, hname, Tag.letter?_frame]

theorem Sound.opened (hp : p.Sound)
    (ht : Tag.isTag tag = true) (hd : (settings.map Prod.fst).Nodup)
    (h : nodeFor tag type settings p = (.ok id, p')) : Opened tag type settings p id p' :=
  nodeFor_opened hp.sane hp.grouped (fun id hi => (hp.found tag id hi).2) ht hd h

theorem apart_of_used (hp : p.Sound) (hk : tag ∉ p.keys) (hl : Tag.letter? tag ≠ some 'G')
    (h : id ∈ p.used) : p.tree.Apart tag id := by
  obtain ⟨n, hn, -, hname⟩ := hp.used id h
  refine ⟨n, hn, ?_⟩
  rintro rfl
  rcases hname with hname | ⟨-, hname⟩
  · exact hk hname
  · exact hl hname

theorem apart_of_settled (hp : p.Sound) (ht : Tag.isTag tag = true) (hk : tag ∉ p.keys)
    (h : p.Settled id) : p.tree.Apart tag id := by
  obtain rfl | ⟨-, n, hn, hname⟩ := settled_used hp h
  · exact (hp.grouped.apart ht).1
  · refine ⟨n, hn, ?_⟩
    rintro rfl
    exact hk hname

def closed (p : Pass) (t : Tree) (counts : HandleCounts) (constants : Nat)
    (new : List (String × List Handle)) : Pass :=
  { p with tree := t, counts, constants, results := new ++ p.results }

section Extend

variable {type : NodeType} {settings : List (String × String)} {p₁ : Pass} {t : Tree} {n : Node}
  {new : List (String × List Handle)} (counts : HandleCounts) (constants : Nat)

theorem name_of_keeps {D : NodeId → Prop} {t₀ : Tree} {x : NodeId} {m : Node}
    (hkeeps : Tree.Keeps D t₀ t) (hx : D x) (hm : t₀.node? x = some m) :
    ∃ m', t.node? x = some m' ∧ m'.name = m.name ∧ m'.type = m.type ∧ m'.core = m.core := by
  obtain ⟨m', hm', horphan⟩ := hkeeps.node? hx hm
  refine ⟨m', hm', ?_, ?_, Node.core_of_orphan horphan⟩
  · exact show m'.orphan.name = m.orphan.name by rw [horphan]
  · exact show m'.orphan.type = m.orphan.type by rw [horphan]

/-- What is known of a node that was got for a tag and of the results it gives:
nothing else that is in use is changed. -/
structure Extension (tag : String) (p : Pass) (id : NodeId) (t : Tree) (n : Node)
    (new : List (String × List Handle)) : Prop where
  tagged : Tag.isTag tag = true
  isNew : tag ∉ p.keys
  others : ∀ x ∈ p.used, p.tree.Apart tag x ∨ x = id
  keeps : Tree.Keeps (p.tree.Apart tag) p.tree t
  sane : t.Sane
  boundary : t.boundary = p.tree.boundary
  editor : t.editor = p.tree.editor
  node : t.node? id = some n
  name : n.name = tag
  active : t.active = p.tree.active ∨ t.active = some id
  given : ∀ e ∈ new, e.1 = tag ∧ e.2 ≠ [] ∧ Tag.letter? tag ≠ some 'G' ∧
    (Tag.IsSeparation tag → e.2.length = 3) ∧ ∀ h ∈ e.2, h.node = id
  sort : tag ∈ new.map (·.1) ∨ n.type = .frame ∧ Tag.letter? tag = some 'G'

theorem keys_closed (ho : Opened tag type settings p id p₁) :
    (p₁.closed t counts constants new).keys = new.map (·.1) ++ p.keys := by
  show (new ++ p₁.results).map _ = _
  rw [ho.rest.2.2.1, List.map_append]
  rfl

theorem Sound.extend (hp : p.Sound) (ho : Opened tag type settings p id p₁)
    (hx : Extension tag p id t n new) : (p₁.closed t counts constants new).Sound where
  sane := hx.sane
  grouped := by
    obtain ⟨hgi, hgo⟩ := hp.grouped.apart hx.tagged
    exact hp.grouped.keeps hx.keeps hgi hgo hx.boundary
  found := by
    intro other x h
    change p₁.index.lookup other = some x at h
    by_cases heq : other = tag
    · subst heq
      rw [ho.index] at h
      cases h
      exact ⟨hx.tagged, n, hx.node, hx.name⟩
    · rw [ho.others other heq] at h
      obtain ⟨htag, m, hm, hname⟩ := hp.found other x h
      obtain ⟨m', hm', hname', -⟩ := name_of_keeps hx.keeps ⟨m, hm, by rwa [hname]⟩ hm
      exact ⟨htag, m', hm', hname'.trans hname⟩
  used := by
    rw [keys_closed counts constants ho]
    have own : ∃ m, t.node? id = some m ∧ p₁.index.lookup m.name = some id ∧
        (m.name ∈ new.map (·.1) ++ p.keys ∨
          m.type = .frame ∧ Tag.letter? m.name = some 'G') := by
      refine ⟨n, hx.node, ?_, ?_⟩
      · rw [hx.name]
        exact ho.index
      · rw [hx.name]
        exact hx.sort.imp_left (List.mem_append_left _)
    intro x h
    change x ∈ p₁.used at h
    rw [ho.used] at h
    rcases List.mem_cons.mp h with rfl | h
    · exact own
    · rcases hx.others x h with hap | rfl
      · obtain ⟨m, hm, hi, hor⟩ := hp.used x h
        obtain ⟨m', hm', hname', htype', -⟩ := name_of_keeps hx.keeps hap hm
        refine ⟨m', hm', ?_, ?_⟩
        · obtain ⟨k, hk, hne⟩ := hap
          rw [hm] at hk
          cases hk
          rw [hname']
          exact (ho.others m.name hne).trans hi
        · rw [hname', htype']
          exact hor.imp_left (List.mem_append_right _)
      · exact own
  settled := by
    rw [keys_closed counts constants ho]
    intro e he g hg
    change e ∈ new ++ p₁.results at he
    change _ ∨ g.node ∈ p₁.used ∧ _
    rw [ho.rest.2.2.1] at he
    rw [ho.used]
    rcases List.mem_append.mp he with he | he
    · obtain ⟨htag, -, -, -, hnode⟩ := hx.given e he
      rw [hnode g hg]
      refine .inr ⟨List.mem_cons_self, n, hx.node, List.mem_append_left _ ?_⟩
      rw [hx.name, ← htag]
      exact List.mem_map_of_mem he
    · rcases hp.settled e he g hg with hgroup | ⟨hu, m, hm, hname⟩
      · exact .inl hgroup
      · obtain ⟨m', hm', hname', -⟩ := name_of_keeps hx.keeps
          (apart_of_settled hp hx.tagged hx.isNew (.inr ⟨e, he, g, hg, rfl⟩)) hm
        exact .inr ⟨List.mem_cons_of_mem _ hu, m', hm', List.mem_append_right _ (by rwa [hname'])⟩
  entries := by
    intro e he
    change e ∈ new ++ p₁.results at he
    rw [ho.rest.2.2.1] at he
    rcases List.mem_append.mp he with he | he
    · obtain ⟨htag, hne, hl, hsep, -⟩ := hx.given e he
      rw [htag]
      exact ⟨hne, hl, hsep⟩
    · exact hp.entries e he
  active := by
    change ∃ a, t.active = some a ∧ (a = .groupInput ∨ a ∈ p₁.used)
    rw [ho.used]
    rcases hx.active with hact | hact
    · obtain ⟨a, ha, hor⟩ := hp.active
      exact ⟨a, hact.trans ha, hor.imp_right (List.mem_cons_of_mem _)⟩
    · exact ⟨id, hact, .inr List.mem_cons_self⟩

theorem Grows.extend (hp : p.Sound) (ho : Opened tag type settings p id p₁)
    (hx : Extension tag p id t n new) (hcounts : ∀ k, p.counts.get k ≤ counts.get k)
    (hown : id ∈ p.used → ∀ m, p.tree.node? id = some m → n.core = m.core) :
    Grows p (p₁.closed t counts constants new) where
  keeps := hx.keeps.mono fun _ h => apart_of_settled hp hx.tagged hx.isNew h
  results := by
    show p.results <:+ new ++ p₁.results
    rw [ho.rest.2.2.1]
    exact List.suffix_append _ _
  used := by
    show p.used ⊆ p₁.used
    rw [ho.used]
    exact List.subset_cons_self _ _
  cores := by
    intro x h m hm
    rcases hx.others x h with hap | rfl
    · obtain ⟨m', hm', -, -, hcore⟩ := name_of_keeps hx.keeps hap hm
      exact ⟨m', hm', hcore⟩
    · exact ⟨n, hx.node, hown h m hm⟩
  editor := hx.editor
  boundary := hx.boundary
  counts := hcounts
  literals := Nat.le_of_eq ho.rest.2.1.symm

theorem Opened.active_eq (hp : p.Sound) (ho : Opened tag type settings p id p₁)
    (ht : Tag.isTag tag = true) (h : ∀ a ∈ p.used, p.tree.Apart tag a) :
    p₁.tree.active = p.tree.active := by
  obtain ⟨a, ha, hor⟩ := hp.active
  rw [ha]
  refine ho.active a ha ?_
  rcases hor with rfl | hu
  · exact (hp.grouped.apart ht).1
  · exact h a hu

end Extend

/-- A step that gives new results under a tag, by means of one node. -/
structure Closes (tag : String) (p : Pass) (id : NodeId) (handles : List Handle) (p' : Pass) :
    Prop where
  sound : p'.Sound
  grows : Grows p p'
  keeps : Tree.Keeps (p.tree.Apart tag) p.tree p'.tree
  own : ¬p.tree.Apart tag id
  node : ∃ n, p'.tree.node? id = some n ∧ n.name = tag
  used : p'.used = id :: p.used
  results : p'.results = (tag, handles) :: p.results
  literals : p'.literals = p.literals

/-- A node that was got for a new tag, edited and given as a result: everything
before it stays. -/
theorem settle {p₁ : Pass} {t : Tree}
    (counts : HandleCounts) (constants : Nat) (handles : List Handle)
    (hp : p.Sound) (ht : Tag.isTag tag = true) (hk : tag ∉ p.keys)
    (hl : Tag.letter? tag ≠ some 'G') (ho : Opened tag type settings p id p₁)
    (hlocal : p₁.tree.Local id t) (hsane : t.Sane)
    (hact : t.active = p₁.tree.active ∨ t.active = some id)
    (hne : handles ≠ []) (hh : ∀ h ∈ handles, h.node = id)
    (hsep : Tag.IsSeparation tag → handles.length = 3)
    (hcounts : ∀ k, p.counts.get k ≤ counts.get k) :
    Closes tag p id handles (p₁.closed t counts constants [(tag, handles)]) := by
  obtain ⟨n₁, hn₁, hname₁, -⟩ := ho.node
  obtain ⟨n, hn, -, hname, -⟩ := hlocal.own n₁ hn₁
  rw [hname₁] at hname
  have apart_used : ∀ x ∈ p.used, p.tree.Apart tag x := fun x hx => apart_of_used hp hk hl hx
  have hx : Extension tag p id t n [(tag, handles)] := {
    tagged := ht
    isNew := hk
    others := fun x h => .inl (apart_used x h)
    keeps := ho.keeps.trans (hlocal.keeps ho.sane ho.own) fun _ h => h
    sane := hsane
    boundary := hlocal.boundary.trans ho.boundary
    editor := hlocal.editor.trans ho.editor
    node := hn
    name := hname
    active := hact.imp_left fun h => h.trans (ho.active_eq hp ht apart_used)
    given := by
      intro e he
      rw [List.mem_singleton.mp he]
      exact ⟨rfl, hne, hl, hsep, hh⟩
    sort := .inl (by simp) }
  refine ⟨hp.extend counts constants ho hx, .extend counts constants hp ho hx hcounts ?_, hx.keeps,
    ho.own, ⟨n, hn, hname⟩, ho.used, ?_, ho.rest.2.1⟩
  · intro hu
    exact absurd (apart_used id hu) ho.own
  · show (tag, handles) :: p₁.results = _
    rw [ho.rest.2.2.1]

def Ready (p : Pass) : Operand → Prop
  | .handle h => p.Settled h.node
  | .literal l => ∃ x, l = .scalar x

end Pass

end FormulaGraph
