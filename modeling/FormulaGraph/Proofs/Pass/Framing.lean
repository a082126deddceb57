import FormulaGraph.Proofs.Pass.Steps

/-!
Frames: what they do to a tree does not reach beyond the frame itself and the
frames that nodes are in.
-/

namespace FormulaGraph

open Run

namespace Tree

variable {t t' : Tree}

def flat (t : Tree) : Tree := { t with nodes := t.nodes.map Node.orphan }

theorem node?_flat (id : NodeId) : t.flat.node? id = t.bare? id := by
  unfold node? flat bare? Tree.node?
  rw [find?_map_of_congr]
  intro n
  rfl

theorem flat_setParent (parent id : NodeId) : (t.setParent parent id).flat = t.flat := by
  unfold setParent modifyNode flat
  simp only [List.map_map]
  congr 1
  apply List.map_congr_left
  intro n _
  simp only [Function.comp_apply]
  split <;> rfl

theorem flat_foldl_setParent (parent : NodeId) (ids : List NodeId) :
    (ids.foldl (fun t id => t.setParent parent id) t).flat = t.flat := by
  induction ids generalizing t with
  | nil => rfl
  | cons id ids ih => rw [List.foldl_cons, ih, flat_setParent]

section Flat

variable (h : t'.flat = t.flat)
include h

theorem bare?_of_flat (id : NodeId) : t'.bare? id = t.bare? id := by
  rw [← node?_flat, h, node?_flat]

theorem map_id_of_flat : t'.nodes.map (·.id) = t.nodes.map (·.id) := by
  have : t'.flat.nodes.map (·.id) = t.flat.nodes.map (·.id) := by rw [h]
  simpa [flat, Function.comp_def, Node.orphan] using this

theorem links_of_flat : t'.links = t.links := show t'.flat.links = t.flat.links by rw [h]

theorem keeps_of_flat {D : NodeId → Prop} : Keeps D t t' where
  nodes := fun id _ => bare?_of_flat h id
  feeds := by
    intro _ _ x _ _ _ _
    unfold sourceOf? feedOf?
    rw [links_of_flat h]

theorem adds_of_flat : Adds t t' where
  nodes := by
    intro id n hn
    obtain ⟨n', hn', ho⟩ := node?_of_bare? (bare?_of_flat h id) hn
    exact ⟨n', hn', show n'.orphan.name = n.orphan.name by rw [ho],
      show n'.orphan.type = n.orphan.type by rw [ho]⟩
  links := by
    intro l hl _ _ _
    rwa [links_of_flat h]

theorem generatedCount_of_flat : t'.generatedCount = t.generatedCount := by
  have count : ∀ t : Tree, t.flat.generatedCount = t.generatedCount := by
    intro t
    unfold generatedCount flat
    rw [List.countP_map]
    rfl
  rw [← count, h, count]

theorem Sane.of_flat (hs : t.Sane) : t'.Sane := by
  refine hs.reshape (map_id_of_flat h) ?_ (by rw [links_of_flat h]) ?_
  · intro id n' hn'
    obtain ⟨n, hn, ho⟩ := node?_of_bare? (bare?_of_flat h id).symm hn'
    exact ⟨n, hn, (Node.alike_of_orphan ho.symm)⟩
  · exact Nat.le_of_eq (show t.flat.supply = t'.flat.supply by rw [h])

end Flat

end Tree

namespace Pass

def captioned (label : String) (position : Option Point) (n : Node) : Node :=
  { n with label := label, position := position.getD n.position }

def framedTree (t : Tree) (id : NodeId) (label : String) (members : List NodeId) : Tree :=
  (members.filterMap (t.movedRoot? id)).foldl (fun t root => t.setParent id root)
    (t.modifyNode id (captioned label ((members.head?.bind t.node?).map (·.position))))

theorem alike_captioned (label : String) (position : Option Point) (n : Node) :
    (captioned label position n).Alike n := ⟨rfl, rfl, rfl, rfl⟩

section Framed

variable (t : Tree) (id : NodeId) (label : String) (members : List NodeId)

/-- The tree with a frame in its place, before nodes come into it. -/
def placed : Tree :=
  t.modifyNode id (captioned label ((members.head?.bind t.node?).map (·.position)))

theorem flat_framedTree : (framedTree t id label members).flat = (placed t id label members).flat :=
  Tree.flat_foldl_setParent _ _

theorem local_placed : t.Local id (placed t id label members) :=
  .modifyNode (fun _ => rfl) (alike_captioned label _) fun _ => ⟨rfl, rfl, rfl⟩

theorem keeps_framedTree {D : NodeId → Prop} (hs : t.Sane) (hD : ¬D id) :
    Tree.Keeps D t (framedTree t id label members) :=
  ((local_placed t id label members).keeps hs hD).trans
    (Tree.keeps_of_flat (flat_framedTree t id label members)) fun _ h => h

theorem node?_framedTree {n : Node} (hn : t.node? id = some n) :
    ∃ m, (framedTree t id label members).node? id = some m ∧ m.orphan =
      (captioned label ((members.head?.bind t.node?).map (·.position)) n).orphan := by
  refine Tree.node?_of_bare? (Tree.bare?_of_flat (flat_framedTree t id label members) id) ?_
  rw [placed, Tree.node?_modifyNode (by intro n; rfl), hn]
  simp

end Framed

variable {p p' p₁ : Pass} {tag label : String} {members : List NodeId} {id : NodeId}

theorem frame_run (h : nodeFor (Tag.frameMark ++ tag) .frame [] p = (.ok id, p₁)) :
    frame tag label members p = (.ok (), { p₁ with
      tree := framedTree p₁.tree id label members
      groups := (id, members) :: p₁.groups }) := by
  unfold frame
  rw [bind_of_ok h]
  rfl

structure Enframes (tag label : String) (members : List NodeId) (p : Pass) (id : NodeId)
    (p' : Pass) : Prop where
  sound : p'.Sound
  grows : Grows p p'
  keeps : Tree.Keeps (p.tree.Apart (Tag.frameMark ++ tag)) p.tree p'.tree
  node : ∃ n, p'.tree.node? id = some n ∧ n.name = Tag.frameMark ++ tag ∧ n.type = .frame ∧
    n.label = label ∧ ∀ m rest k, members = m :: rest → p.Settled m → p.tree.node? m = some k →
      n.position = k.position
  used : p'.used = id :: p.used
  results : p'.results = p.results
  rest : p'.counts = p.counts ∧ p'.literals = p.literals ∧ p'.constants = p.constants
  active : p'.tree.active = p.tree.active

theorem frame_not_key (hp : p.Sound) : Tag.frameMark ++ tag ∉ p.keys := by
  intro hm
  obtain ⟨e, he, hname⟩ := List.mem_map.mp hm
  have := (hp.entries e he).2.1
  rw [hname, Tag.letter?_frame] at this
  exact this rfl

theorem nodeFor_used_frame (hp : p.Sound) {n : Node} {x : NodeId} (hx : x ∈ p.used)
    (hn : p.tree.node? x = some n) (hname : n.name = Tag.frameMark ++ tag)
    (h : nodeFor (Tag.frameMark ++ tag) .frame [] p = (.ok id, p₁)) :
    x = id ∧ p₁ = p.reused [] id := by
  obtain ⟨m, hm, hi, hor⟩ := hp.used x hx
  rw [hn] at hm
  cases hm
  have htype : n.type = .frame := by
    rcases hor with hk | ⟨ht, -⟩
    · rw [hname] at hk
      exact absurd hk (frame_not_key hp)
    · exact ht
  rw [nodeFor_run, ← hname, hi] at h
  dsimp only at h
  rw [hn] at h
  dsimp only at h
  rw [if_pos htype] at h
  cases h
  exact ⟨rfl, rfl⟩

theorem frame_spec (hp : p.Sound) {u : Unit} (h : frame tag label members p = (.ok u, p')) :
    ∃ id p₁, nodeFor (Tag.frameMark ++ tag) .frame [] p = (.ok id, p₁) ∧
      Enframes tag label members p id p' := by
  obtain ⟨id, p₁, h₁, -⟩ := bind_eq_ok.mp h
  rw [frame_run h₁] at h
  cases h
  refine ⟨id, p₁, h₁, ?_⟩
  have ht := Tag.isTag_frame tag
  have ho := hp.opened ht (by simp) h₁
  obtain ⟨hcounts, hliterals, hresults, hconstants⟩ := ho.rest
  obtain ⟨n₁, hn₁, hname₁, htype₁, -⟩ := ho.node
  let t := framedTree p₁.tree id label members
  have hflat : t.flat = (placed p₁.tree id label members).flat := flat_framedTree _ _ _ _
  have hkeeps : Tree.Keeps (p.tree.Apart (Tag.frameMark ++ tag)) p.tree t :=
    ho.keeps.trans (keeps_framedTree _ _ _ _ ho.sane ho.own) fun _ h => h
  obtain ⟨n₂, hn₂, horphan₂⟩ := node?_framedTree p₁.tree id label members hn₁
  have hname₂ : n₂.name = Tag.frameMark ++ tag :=
    show n₂.orphan.name = _ by rw [horphan₂]; exact hname₁
  have htype₂ : n₂.type = .frame := show n₂.orphan.type = _ by rw [horphan₂]; exact htype₁
  -- a node in use is either kept or the frame itself, found again
  have used_cases : ∀ x ∈ p.used, p.tree.Apart (Tag.frameMark ++ tag) x ∨
      x = id ∧ p₁ = p.reused [] id := by
    intro x hx
    obtain ⟨n, hn, -⟩ := hp.used x hx
    by_cases hname : n.name = Tag.frameMark ++ tag
    · exact .inr (nodeFor_used_frame hp hx hn hname h₁)
    · exact .inl ⟨n, hn, hname⟩
  have hactive : t.active = p.tree.active := by
    have h₁' : t.active = p₁.tree.active := show t.flat.active = _ by rw [hflat]; rfl
    obtain ⟨a, ha, hor⟩ := hp.active
    rw [h₁', ha]
    rcases hor with rfl | hu
    · exact ho.active _ ha (hp.grouped.apart ht).1
    · rcases used_cases a hu with hap | ⟨-, rfl⟩
      · exact ho.active a ha hap
      · exact ha
  have hx : Extension (Tag.frameMark ++ tag) p id t n₂ [] := {
    tagged := ht
    isNew := frame_not_key hp
    others := fun x hx => (used_cases x hx).imp_right And.left
    keeps := hkeeps
    sane := (Tree.Sane.modifyNode (f := captioned label _) ho.sane (fun _ => rfl)
      (alike_captioned label _)).of_flat hflat
    boundary := (show t.flat.boundary = p₁.tree.boundary by rw [hflat]; rfl).trans ho.boundary
    editor := (show t.flat.editor = p₁.tree.editor by rw [hflat]; rfl).trans ho.editor
    node := hn₂
    name := hname₂
    active := .inl hactive
    given := by simp
    sort := .inr ⟨htype₂, Tag.letter?_frame tag⟩ }
  refine ⟨(hp.extend p₁.counts p₁.constants ho hx).withGroups _,
    (Grows.extend p₁.counts p₁.constants hp ho hx (fun k => by rw [hcounts]) ?_).withGroups _,
    hkeeps, ⟨n₂, hn₂, hname₂, htype₂, ?_, ?_⟩, ho.used, hresults,
    ⟨hcounts, hliterals, hconstants⟩, hactive⟩
  · intro hu m hm
    rcases used_cases id hu with hap | ⟨-, rfl⟩
    · exact absurd hap ho.own
    · change (p.tree.modifyNode id (refresh [])).node? id = some n₁ at hn₁
      rw [Tree.node?_modifyNode (by intro n; rfl), hm] at hn₁
      have : n₁ = refresh [] m := by simpa using hn₁.symm
      rw [Node.core_of_orphan horphan₂, this]
      rfl
  · exact show n₂.orphan.label = _ by rw [horphan₂]; rfl
  · rintro m rest k rfl hm hk
    obtain ⟨k', hk', horphan⟩ :=
      ho.keeps.node? (apart_of_settled hp ht (frame_not_key hp) hm) hk
    rw [List.head?_cons, Option.bind_some, hk'] at horphan₂
    have : n₂.orphan.position = k'.position := by rw [horphan₂]; rfl
    exact this.trans (show k'.orphan.position = k.orphan.position by rw [horphan])

end Pass

end FormulaGraph
