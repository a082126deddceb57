import FormulaGraph.Proofs.Grouping
import FormulaGraph.Proofs.Pass.Actions

/-!
Frames form a forest: no node encloses itself, and whatever a node is in is in
the tree. Grouping nodes keeps it so, since what moves into a frame is in no
other one and not around it. So climbing from a node out of its frames always
comes to an end, after whatever passes.
-/

namespace FormulaGraph

open Run Relation

namespace Tree

variable {t t' : Tree} {x y frame : NodeId}

structure Forest (t : Tree) : Prop where
  nested : t.Nested
  inside : ∀ n ∈ t.nodes, ∀ f, n.parent = some f → t.contains f = true

theorem map_id_of_outline (h : t'.outline = t.outline) :
    t'.nodes.map (·.id) = t.nodes.map (·.id) := by
  have hids := congrArg (List.map Outline.id) h
  rw [outline, outline, List.map_map, List.map_map] at hids
  exact hids

theorem parent?_addNode (type : NodeType) (setup : NodeSetup) :
    (t.addNode type setup).1.parent? x = t.parent? x := by
  rw [addNode_eq, parent?, node?, List.find?_append, parent?, node?]
  cases t.nodes.find? (·.id == x) with
  | some n => rfl
  | none =>
    rw [Option.none_or, Option.bind_none, List.find?_singleton]
    split
    · exact parent_addedNode type setup
    · rfl

theorem contains_setParent (frame root : NodeId) :
    (t.setParent frame root).contains x = t.contains x := contains_modifyNode fun _ => rfl

theorem parent?_setParent (frame root : NodeId) : (t.setParent frame root).parent? x =
    if x = root ∧ t.contains x = true then some frame else t.parent? x := by
  have hc : t.contains x = (t.node? x).isSome := by
    rw [Bool.eq_iff_iff, contains_iff, Option.isSome_iff_exists]
  rw [parent?, node?_setParent, hc, parent?]
  cases t.node? x with
  | none => simp
  | some n => by_cases hx : x = root <;> simp [hx]

theorem parent?_foldl_setParent (roots : List NodeId) :
    (roots.foldl (fun t root => t.setParent frame root) t).parent? x =
      if x ∈ roots ∧ t.contains x = true then some frame else t.parent? x := by
  induction roots generalizing t with
  | nil => simp
  | cons root roots ih =>
    rw [List.foldl_cons, ih, contains_setParent, parent?_setParent]
    cases t.contains x with
    | false => simp
    | true => by_cases hroot : x = root <;> simp [hroot]

theorem parent?_framedTree (label : String) (members : List NodeId) :
    (Pass.framedTree t frame label members).parent? x =
      if x ∈ members.filterMap (t.movedRoot? frame) ∧ t.contains x = true then some frame
      else t.parent? x := by
  rw [Pass.framedTree, parent?_foldl_setParent, contains_modifyNode, parent?_modifyNode]
  all_goals exact fun _ => rfl

/-- Climbing out of the frames around a node ends outside of them, unless they
have been cut off. -/
theorem getLast?_ancestryWithin (t : Tree) (limit : Nat) (x : NodeId) :
    (∃ y, (t.ancestryWithin limit x).getLast? = some y ∧ t.parent? y = none) ∨
      t.CutOff limit x := by
  induction limit generalizing x with
  | zero =>
    cases hp : t.parent? x with
    | none => exact .inl ⟨x, rfl, hp⟩
    | some parent => exact .inr (.zero (by rw [hp]; rfl))
  | succ limit ih =>
    cases hp : t.parent? x with
    | none =>
      rw [ancestryWithin_of_none hp]
      exact .inl ⟨x, rfl, hp⟩
    | some parent =>
      rw [ancestryWithin_of_some hp, List.getLast?_cons]
      rcases ih parent with ⟨y, hy, hnone⟩ | hcut
      · rw [hy]
        exact .inl ⟨y, rfl, hnone⟩
      · exact .inr (.succ hp hcut)

theorem Nested.getLast?_ancestry (h : t.Nested) (x : NodeId) :
    ∃ y, (t.ancestry x).getLast? = some y ∧ t.parent? y = none :=
  (t.getLast?_ancestryWithin t.nodes.length x).resolve_right (h.not_cutOff (Nat.le_refl _) x)

/-- Climbing out of frames ends: at a node that is in none, or below the frame
that it is not to pass. -/
def Climbable (t : Tree) : Prop := ∀ x,
  (∃ y, (t.ancestry x).getLast? = some y ∧ t.parent? y = none) ∧
  ∀ frame, t.parent? (t.outermostBelow frame x) = none ∨
    t.parent? (t.outermostBelow frame x) = some frame

/-- No node leaves its frame. What comes into the given frame was in none, and
is a member or around one. -/
structure Takes (t t' : Tree) (frame : NodeId) (members : List NodeId) : Prop where
  stays : ∀ x f, t.InFrame x f → t'.InFrame x f
  moves : ∀ x f, t'.InFrame x f → t.InFrame x f ∨
    f = frame ∧ t.parent? x = none ∧ ∃ m ∈ members, ReflTransGen t.InFrame m x

namespace Forest

variable {S : SocketId → Prop} {N : Side → String → Prop}
variable (h : t.Forest)
include h

theorem climbable : t.Climbable := fun x =>
  ⟨h.nested.getLast?_ancestry x, fun frame => h.nested.parent?_outermostBelow frame x⟩

theorem of_outline (ho : t'.outline = t.outline) : t'.Forest where
  nested := by
    refine h.nested.mono fun a b hab => ?_
    rwa [InFrame, parent?_of_outline ho] at hab
  inside := by
    intro n hn f hf
    obtain ⟨m, hm, heq⟩ := mem_outline.mp (ho ▸ mem_outline.mpr ⟨n, hn, rfl⟩)
    rw [contains_congr (map_id_of_outline ho)]
    exact h.inside m hm f ((congrArg Outline.parent heq).trans hf)

theorem addNode (type : NodeType) (setup : NodeSetup) :
    (t.addNode type setup).1.Forest where
  nested := by
    refine h.nested.mono fun a b hab => ?_
    rwa [InFrame, parent?_addNode] at hab
  inside := by
    rw [addNode_eq]
    intro n hn f hf
    rcases List.mem_append.mp hn with hn | hn
    · have hc := contains_iff_mem.mp (h.inside n hn f hf)
      rw [contains_iff_mem, List.map_append]
      exact List.mem_append_left _ hc
    · rw [List.mem_singleton.mp hn, parent_addedNode] at hf
      cases hf

theorem removeNode (x : NodeId) : (t.removeNode x).Forest := by
  cases hg : x.isGroup with
  | true =>
    rw [Tree.removeNode, if_pos hg]
    exact h
  | false =>
    constructor
    · refine h.nested.mono fun a b hab => ?_
      obtain ⟨n, hn, hp⟩ := inFrame_iff.mp hab
      rw [node?_removeNode hg] at hn
      split at hn
      · cases hn
      · obtain ⟨m, hm, rfl⟩ := Option.map_eq_some_iff.mp hn
        refine inFrame_iff.mpr ⟨m, hm, ?_⟩
        unfold leaving at hp
        split at hp
        · cases hp
        · exact hp
    · rw [removeNode_eq hg]
      intro n hn f hf
      obtain ⟨m, hm, rfl⟩ := List.mem_map.mp hn
      obtain ⟨hp, hne⟩ := Option.filter_eq_some_iff.mp hf
      obtain ⟨k, hk, rfl⟩ := List.mem_map.mp
        (contains_iff_mem.mp (h.inside m (List.mem_filter.mp hm).1 f hp))
      rw [contains_iff_mem, List.map_map]
      exact List.mem_map.mpr ⟨k, List.mem_filter.mpr ⟨hk, hne⟩, rfl⟩

theorem setParent {root : NodeId} (hc : t.contains frame = true)
    (hout : ¬ReflTransGen t.InFrame frame root) : (t.setParent frame root).Forest where
  nested := h.nested.setParent hout
  inside := by
    intro n hn f hf
    rw [contains_setParent]
    obtain ⟨m, hm, rfl⟩ := List.mem_map.mp hn
    split at hf
    · cases hf
      exact hc
    · exact h.inside m hm f hf

theorem foldl_setParent {roots : List NodeId} (hc : t.contains frame = true)
    (hroots : ∀ root ∈ roots, ¬ReflTransGen t.InFrame frame root) :
    (roots.foldl (fun t root => t.setParent frame root) t).Forest := by
  induction roots generalizing t with
  | nil => exact h
  | cons root roots ih =>
    refine ih (h.setParent hc (hroots root List.mem_cons_self)) ?_ fun other hother => ?_
    · rwa [contains_setParent]
    · exact not_reaches_setParent (hroots other (List.mem_cons_of_mem _ hother))

/-- What moves into a frame is not around it. -/
theorem framedTree (hc : t.contains frame = true) (label : String)
    (members : List NodeId) : (Pass.framedTree t frame label members).Forest := by
  have hcaption : ∀ position, t.Redresses (t.modifyNode frame (Pass.captioned label position)) := by
    intro position
    exact .modifyNode fun n _ => ⟨rfl, rfl, fun _ => ⟨rfl, rfl, rfl, rfl⟩⟩
  have houtline := (hcaption ((members.head?.bind t.node?).map (·.position))).outline
  refine (h.of_outline houtline).foldl_setParent ?_ fun root hroot hreach => ?_
  · rw [contains_congr (map_id_of_outline houtline)]
    exact hc
  · obtain ⟨m, -, hm⟩ := List.mem_filterMap.mp hroot
    refine h.nested.not_reaches_movedRoot? hm (ReflTransGen.mono (fun a b hab => ?_) _ _ hreach)
    rwa [InFrame, parent?_of_outline houtline] at hab

theorem amend (ha : Pass.Amends S N t t') : t'.Forest := by
  rcases ha.cases with hr | ⟨type, setup, rfl⟩ | ⟨id, rfl⟩ | ⟨id, label, members, hc, rfl⟩
  · exact h.of_outline hr.outline
  · exact h.addNode type setup
  · exact h.removeNode id
  · exact h.framedTree hc label members

theorem steps (hs : ReflTransGen (Pass.Amends S N) t t') : t'.Forest := by
  induction hs with
  | refl => exact h
  | tail _ hstep ih => exact ih.amend hstep

end Forest

theorem forest_empty (editor : Editor) : (empty editor).Forest where
  nested := (framed_empty editor).nested
  inside := by
    have hno : ∀ n ∈ (empty editor).nodes, n.parent = none := by
      cases editor <;> decide
    intro n hn f hf
    rw [hno n hn] at hf
    cases hf

theorem Passed.forest (h : t.Passed) : t.Forest := by
  obtain ⟨editor, hsteps⟩ := h.steps
  exact (forest_empty editor).steps hsteps

end Tree

namespace Pass

variable {p p' : Pass} {tag : String} {type : NodeType} {settings : List (String × String)}
  {id : NodeId}

theorem nodeFor_frame (p : Pass) (tag : String) :
    ∃ id p', nodeFor tag .frame [] p = (.ok id, p') := by
  have offered : ∀ editor : Editor, editor.offers .frame = true := by
    intro editor
    cases editor <;> rfl
  have make : ∀ q : Pass, ∃ id p', makeNode tag .frame [] q = (.ok id, p') := by
    intro q
    exact ⟨_, _, by rw [makeNode_run, if_pos (offered _)]⟩
  rw [nodeFor_run]
  split
  · exact make _
  · split
    · exact make _
    · split
      · exact ⟨_, _, rfl⟩
      · exact make _

theorem forest_nodeFor (hf : p.tree.Forest) (h : nodeFor tag type settings p = (.ok id, p')) :
    p'.tree.Forest := by
  obtain ⟨n, -, -, -, rfl⟩ | ⟨q, hq, -, -, rfl⟩ := nodeFor_cases h
  · have hsame : p.tree.Redresses (p.reused settings id).tree :=
      .modifyNode (f := refresh settings) fun n _ => ⟨rfl, rfl, fun _ => alike_refresh n⟩
    exact hf.of_outline hsame.outline
  · refine Tree.Forest.addNode ?_ type _
    obtain ⟨rfl, -⟩ | ⟨old, -, -, rfl⟩ | ⟨old, n, -, -, -, rfl⟩ := hq
    · exact hf
    · exact hf
    · exact hf.removeNode old

theorem parent?_nodeFor (h : nodeFor tag type settings p = (.ok id, p'))
    (hkept : ∀ old n, p.index.lookup tag = some old → p.tree.node? old = some n → n.type = type)
    (x : NodeId) : p'.tree.parent? x = p.tree.parent? x := by
  obtain ⟨n, -, -, -, rfl⟩ | ⟨q, hq, -, -, rfl⟩ := nodeFor_cases h
  · exact Tree.parent?_modifyNode (f := refresh settings) (fun _ => rfl) fun _ => rfl
  · refine (Tree.parent?_addNode type _).trans ?_
    obtain ⟨rfl, -⟩ | ⟨old, -, -, rfl⟩ | ⟨old, n, hi, hn, hne, rfl⟩ := hq
    · rfl
    · rfl
    · exact absurd (hkept old n hi hn) hne

/-- What framing does: a frame is found or made, and nodes are put into it. -/
theorem takes_frame (hf : p.tree.Forest) {label : String} {members : List NodeId}
    (h : nodeFor tag .frame [] p = (.ok id, p'))
    (hkept : ∀ old n, p.index.lookup tag = some old → p.tree.node? old = some n →
      n.type = .frame) :
    p.tree.Takes (framedTree p'.tree id label members) id members := by
  have hparent := parent?_nodeFor h hkept
  have hin : p'.tree.InFrame = p.tree.InFrame := by
    funext x f
    rw [Tree.InFrame, hparent, Tree.InFrame]
  have hnested := (forest_nodeFor hf h).nested
  constructor
  · intro x f hx
    rw [Tree.InFrame, Tree.parent?_framedTree, hparent]
    split
    · next hroot =>
      -- the node is in no other frame than the one it is put into
      obtain ⟨m, -, hm⟩ := List.mem_filterMap.mp hroot.1
      have hfree := hnested.parent?_movedRoot? hm
      rw [hparent, show p.tree.parent? x = some f from hx] at hfree
      exact (hfree.resolve_left (Option.some_ne_none f)).symm
    · exact hx
  · intro x f hx
    rw [Tree.InFrame, Tree.parent?_framedTree, hparent] at hx
    split at hx
    · next hroot =>
      obtain ⟨m, hmember, hm⟩ := List.mem_filterMap.mp hroot.1
      cases hx
      rcases hnested.parent?_movedRoot? hm with hnone | hsome
      · exact .inr ⟨rfl, (hparent x).symm.trans hnone, m, hmember, hin ▸ Tree.reaches_movedRoot? hm⟩
      · exact .inl ((hparent x).symm.trans hsome)
    · exact .inl hx

/-- Framing any nodes under any tag succeeds and leaves a forest: both climbs
that it makes end outside of all frames or at the frame, no node leaves the
frame it is in, and only nodes that are outermost around a member come into the
frame. So whatever passes are made of a new tree, its frames form a forest. -/
theorem frames_form_forest :
    (∀ p : Pass, p.tree.Forest → ∀ (tag label : String) (members : List NodeId), ∃ id p₁ p',
      nodeFor (Tag.frameMark ++ tag) .frame [] p = (.ok id, p₁) ∧ p₁.tree.Climbable ∧
      frame tag label members p = (.ok (), p') ∧ p'.tree.Forest ∧
      ((∀ old n, p.index.lookup (Tag.frameMark ++ tag) = some old → p.tree.node? old = some n →
        n.type = .frame) → p.tree.Takes p'.tree id members)) ∧
    ∀ t : Tree, t.Passed → t.Forest := by
  refine ⟨fun p hf tag label members => ?_, fun t => Tree.Passed.forest⟩
  obtain ⟨id, p₁, h⟩ := nodeFor_frame p (Tag.frameMark ++ tag)
  have hf₁ := forest_nodeFor hf h
  refine ⟨id, p₁, _, h, hf₁.climbable, frame_run h, ?_, takes_frame hf h⟩
  exact hf₁.framedTree (contains_of_nodeFor h) label members

/-- A pass that has put the outer of two frames into the inner one. -/
def turned : Pass :=
  [Action.frame "F|min(f0,f1,f2)" "Batch MinMax" [⟨22⟩]].foldl Action.perform
    (start (Tree.compile "floordiv(min(a,b,c),2)" {} (Tree.empty .geometry)).2)

/-- Filling the other frame again leaves the frame around it where it is. -/
theorem frames_form_forest_turned :
    turned.tree.Forest ∧ turned.tree.InFrame ⟨35⟩ ⟨19⟩ ∧
      (frame "F|floordiv(f4,f5)" "FloorDiv" [⟨5⟩, ⟨20⟩] turned).2.tree.Forest ∧
      (frame "F|floordiv(f4,f5)" "FloorDiv" [⟨5⟩, ⟨20⟩] turned).2.tree.InFrame ⟨35⟩ ⟨19⟩ := by
  have hcompiled : (Tree.compile "floordiv(min(a,b,c),2)" {} (Tree.empty .geometry)).2.Passed :=
    .compile (.empty .geometry) _ _
  have hforest : turned.tree.Forest := (Tree.Passed.actions hcompiled _).forest
  have hin : turned.tree.InFrame ⟨35⟩ ⟨19⟩ := by
    unfold Tree.InFrame
    decide +kernel
  obtain ⟨id, p₁, p', -, -, hrun, hforest', htakes⟩ := frames_form_forest.1 turned hforest
    "F|floordiv(f4,f5)" "FloorDiv" [⟨5⟩, ⟨20⟩]
  rw [hrun]
  refine ⟨hforest, hin, hforest', (htakes fun old n hi hn => ?_).stays _ _ hin⟩
  have hlookup : turned.index.lookup (Tag.frameMark ++ "F|floordiv(f4,f5)") = some ⟨35⟩ := by
    decide +kernel
  have htype : (turned.tree.node? ⟨35⟩).map (·.type) = some .frame := by
    decide +kernel
  rw [hlookup] at hi
  cases hi
  rw [hn] at htype
  exact Option.some.inj htype

end Pass

end FormulaGraph
