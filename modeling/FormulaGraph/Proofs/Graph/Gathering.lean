import FormulaGraph.Proofs.Graph.Enclosure
import FormulaGraph.Proofs.Pass.Framing

/-!
Grouping nodes only ever puts more of them into frames. What has once been
brought under a frame stays with it: they are in the same outermost frame, as
frames move as a whole.
-/

namespace FormulaGraph.Tree

open Relation

variable {t t' t'' : Tree} {x y z frame root : NodeId} {F G : NodeId → Prop}

def NamedFrame (t : Tree) (x : NodeId) : Prop :=
  ∃ tag, (t.node? x).map (·.name) = some (Tag.frameMark ++ tag)

structure Framed (t : Tree) : Prop where
  nested : t.Nested
  inside : ∀ x f, t.InFrame x f → t.NamedFrame f

def Together (t : Tree) (x frame : NodeId) : Prop :=
  ∃ z, TransGen t.InFrame x z ∧ ReflTransGen t.InFrame frame z

theorem NamedFrame.modifyNode {f : Node → Node} (h : t.NamedFrame x)
    (hf : ∀ n, (f n).id = n.id ∧ (f n).name = n.name) : (t.modifyNode y f).NamedFrame x := by
  obtain ⟨tag, hx⟩ := h
  refine ⟨tag, ?_⟩
  rw [node?_modifyNode fun n => (hf n).1, Option.map_map, ← hx]
  refine Option.map_congr fun n _ => ?_
  simp only [Function.comp_apply]
  split
  · exact (hf n).2
  · rfl

/-- Nodes may come into some frames and leave none. -/
structure Gathers (F : NodeId → Prop) (t t' : Tree) : Prop where
  framed : t'.Framed
  stays : ∀ x f, t.InFrame x f → t'.InFrame x f
  moves : ∀ x f, t'.InFrame x f → t.InFrame x f ∨ F f

namespace Gathers

theorem trans (h : Gathers F t t') (h' : Gathers F t' t'') : Gathers F t t'' where
  framed := h'.framed
  stays := fun x f hf => h'.stays x f (h.stays x f hf)
  moves := fun x f hf => (h'.moves x f hf).elim (h.moves x f) .inr

theorem mono (h : Gathers F t t') (hF : ∀ f, F f → G f) : Gathers G t t' :=
  ⟨h.framed, h.stays, fun x f hf => (h.moves x f hf).imp_right (hF f)⟩

theorem reaches (h : Gathers F t t') (hxy : ReflTransGen t.InFrame x y) :
    ReflTransGen t'.InFrame x y :=
  ReflTransGen.mono h.stays _ _ hxy

theorem together (h : Gathers F t t') (hx : t.Together x frame) : t'.Together x frame := by
  obtain ⟨z, hx, hf⟩ := hx
  exact ⟨z, TransGen.mono h.stays _ _ hx, h.reaches hf⟩

theorem of_parents (h : t.Framed) (hp : ∀ x, t'.parent? x = t.parent? x)
    (hc : ∀ x, t.NamedFrame x → t'.NamedFrame x) : Gathers F t t' := by
  have hin : t'.InFrame = t.InFrame := by
    funext x f
    rw [InFrame, hp, InFrame]
  refine ⟨⟨h.nested.mono fun x f hf => ?_, fun x f hf => ?_⟩, fun x f hf => ?_, fun x f hf => ?_⟩
  · exact hin ▸ hf
  · exact hc f (h.inside x f (hin ▸ hf))
  · exact hin ▸ hf
  · exact .inl (hin ▸ hf)

theorem of_outline (h : t.Framed) (ho : t'.outline = t.outline) : Gathers F t t' :=
  of_parents h (parent?_of_outline ho) fun x ⟨tag, hx⟩ =>
    ⟨tag, (name?_of_outline ho x).trans hx⟩

theorem addNode (h : t.Framed) (hs : t.Sane) (type : NodeType) (setup : NodeSetup) :
    Gathers F t (t.addNode type setup).1 := by
  have hnew : t.node? ⟨t.supply⟩ = none := by
    cases hn : t.node? ⟨t.supply⟩ with
    | none => rfl
    | some n =>
      have := hs.nodesBelow n (mem_of_node? hn)
      rw [id_of_node? hn] at this
      exact absurd this (Nat.lt_irrefl _)
  refine of_parents h (fun x => ?_) fun x ⟨tag, hx⟩ => ⟨tag, ?_⟩
  · rw [parent?, parent?, node?_addNode hs.nodesBelow]
    split
    · next hx =>
      rw [hx, hnew, Option.bind_some, parent_addedNode]
      rfl
    · rfl
  · rw [node?_addNode hs.nodesBelow, if_neg, hx]
    rintro rfl
    rw [hnew] at hx
    cases hx

theorem setParent (h : t.Framed) (hc : t.NamedFrame frame)
    (hout : ¬ReflTransGen t.InFrame frame root)
    (hfree : t.parent? root = none ∨ t.parent? root = some frame) :
    Gathers (· = frame) t (t.setParent frame root) := by
  refine ⟨⟨h.nested.setParent hout, ?_⟩, ?_, ?_⟩
  · intro x f hf
    rcases inFrame_of_setParent hf with hf | ⟨-, rfl⟩
    · exact (h.inside x f hf).modifyNode fun _ => ⟨rfl, rfl⟩
    · exact hc.modifyNode fun _ => ⟨rfl, rfl⟩
  · intro x f hf
    obtain ⟨n, hn, hp⟩ := inFrame_iff.mp hf
    refine inFrame_iff.mpr ⟨_, by rw [node?_setParent, hn]; rfl, ?_⟩
    dsimp only
    split
    · next hx =>
      -- the node is in the frame already
      rcases hfree with hfree | hfree <;> rw [← hx, hf] at hfree <;> cases hfree
      rfl
    · exact hp
  · intro x f hf
    exact (inFrame_of_setParent hf).imp_right And.right

end Gathers

theorem inFrame_setParent (hc : t.contains root = true) :
    (t.setParent frame root).InFrame root frame := by
  obtain ⟨n, hn⟩ := contains_iff.mp hc
  exact inFrame_iff.mpr ⟨_, by rw [node?_setParent, hn]; rfl, by simp⟩

theorem gathers_foldl_setParent (roots : List NodeId) (h : t.Framed)
    (hc : t.NamedFrame frame) (hroots : ∀ x ∈ roots, ¬ReflTransGen t.InFrame frame x ∧
      (t.parent? x = none ∨ t.parent? x = some frame)) (hin : ∀ x ∈ roots, t.contains x = true) :
    Gathers (· = frame) t (roots.foldl (fun t root => t.setParent frame root) t) ∧
      ∀ x ∈ roots, (roots.foldl (fun t root => t.setParent frame root) t).InFrame x frame := by
  induction roots generalizing t with
  | nil => exact ⟨.of_parents h (fun _ => rfl) fun _ hx => hx, by simp⟩
  | cons root roots ih =>
    rw [List.forall_mem_cons] at hroots hin
    have hstep := Gathers.setParent h hc hroots.1.1 hroots.1.2
    have hcontains : ∀ x, (t.setParent frame root).contains x = t.contains x :=
      fun _ => contains_modifyNode fun _ => rfl
    obtain ⟨hrest, hall⟩ := ih hstep.framed (hc.modifyNode fun _ => ⟨rfl, rfl⟩)
      (fun x hx => ⟨not_reaches_setParent (hroots.2 x hx).1, free_setParent root (hroots.2 x hx).2⟩)
      fun x hx => (hcontains x).trans (hin.2 x hx)
    exact ⟨hstep.trans hrest, List.forall_mem_cons.mpr
      ⟨hrest.stays _ _ (inFrame_setParent hin.1), hall⟩⟩

/-- A member of a frame is in it, or is with it in what is around both. -/
theorem gathers_framedTree {members : List NodeId} (h : t.Framed) (hc : t.NamedFrame frame)
    (label : String) (hm : ∀ m ∈ members, t.contains m = true ∧ ¬t.NamedFrame m) :
    Gathers (· = frame) t (Pass.framedTree t frame label members) ∧
      ∀ m ∈ members, (Pass.framedTree t frame label members).Together m frame := by
  let position := (members.head?.bind t.node?).map (·.position)
  let u := t.modifyNode frame (Pass.captioned label position)
  have hparent : ∀ x, u.parent? x = t.parent? x := fun x =>
    parent?_modifyNode (f := Pass.captioned label position) (fun _ => rfl) fun _ => rfl
  have hcontains : ∀ x, u.contains x = t.contains x := fun _ => contains_modifyNode fun _ => rfl
  have hcaption : Gathers (· = frame) t u :=
    .of_parents h hparent fun x hx => hx.modifyNode fun _ => ⟨rfl, rfl⟩
  have hin : u.InFrame = t.InFrame := by
    funext x f
    rw [InFrame, hparent, InFrame]
  have inside : ∀ m ∈ members, ∀ root, t.movedRoot? frame m = some root →
      t.contains root = true := by
    intro m hmem root hmoved
    rcases (reaches_movedRoot? hmoved).cases_tail with heq | ⟨y, -, hy⟩
    · exact heq ▸ (hm m hmem).1
    · obtain ⟨tag, hname⟩ := h.inside y root hy
      obtain ⟨n, hn, -⟩ := Option.map_eq_some_iff.mp hname
      exact contains_iff.mpr ⟨n, hn⟩
  obtain ⟨hfold, hall⟩ := gathers_foldl_setParent (members.filterMap (t.movedRoot? frame))
    hcaption.framed (hc.modifyNode fun _ => ⟨rfl, rfl⟩) (fun x hx => by
      obtain ⟨m, -, hmoved⟩ := List.mem_filterMap.mp hx
      rw [hin, hparent]
      exact ⟨h.nested.not_reaches_movedRoot? hmoved, h.nested.parent?_movedRoot? hmoved⟩)
    (fun x hx => by
      obtain ⟨m, hmem, hmoved⟩ := List.mem_filterMap.mp hx
      exact (hcontains x).trans (inside m hmem x hmoved))
  have htotal : Gathers (· = frame) t (Pass.framedTree t frame label members) :=
    hcaption.trans hfold
  refine ⟨htotal, fun m hmem => ?_⟩
  cases hmoved : t.movedRoot? frame m with
  | some root =>
    refine ⟨frame, .tail' (htotal.reaches (reaches_movedRoot? hmoved)) (hall root ?_), .refl⟩
    exact List.mem_filterMap.mpr ⟨m, hmem, hmoved⟩
  | none =>
    -- what holds both is a frame, which the member is not
    have hframe := reaches_of_movedRoot? hmoved
    refine htotal.together ⟨t.outermostBelow frame m, ?_, hframe⟩
    rcases reflTransGen_iff_eq_or_transGen.mp (reaches_outermostBelow t frame m) with heq | hreach
    · rw [heq] at hframe
      rcases hframe.cases_tail with hself | ⟨y, -, hy⟩
      · exact absurd (hself ▸ hc) (hm m hmem).2
      · exact absurd (h.inside y m hy) (hm m hmem).2
    · exact hreach

end FormulaGraph.Tree
