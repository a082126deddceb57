import FormulaGraph.Proofs.Graph.Gathering
import FormulaGraph.Proofs.Pass.Tidy

/-!
Getting a node in a tidy tree. The node that a tag finds has the type and the
settings that are asked for, so it is used as it is; else a new one is made.
Either way all other nodes are kept, and the inputs that are given no argument
are as new.
-/

namespace FormulaGraph

open Run

namespace Tree

variable {t : Tree} {type : NodeType} {setup : NodeSetup}

theorem keeps_others_addNode (hs : t.Sane) : Keeps (· ≠ ⟨t.supply⟩) t (t.addNode type setup).1 where
  nodes := by
    intro id hid
    unfold bare?
    rw [node?_addNode hs.nodesBelow, if_neg hid]
  feeds := by
    intro id n x _ _ _ _
    rw [addNode_eq]
    rfl

theorem feedOf?_of_supply_le (hs : t.Sane) {x : SocketId} (hx : t.supply ≤ x.index) :
    t.feedOf? x = none := by
  cases h : t.feedOf? x with
  | none => rfl
  | some l =>
    obtain ⟨-, n, hn, hmem⟩ := hs.ends l (mem_of_feedOf? h)
    have hlt := hs.socketsBelow _ n _ hn (List.mem_append_left _ hmem)
    rw [target_of_feedOf? h] at hlt
    omega

theorem types_instances (specs : List SocketSpec) (side : Side) (first : Nat) :
    (SocketSpec.instances specs side first).map (·.type) = specs.map (·.type) := by
  apply List.ext_getElem?
  intro i
  simp [SocketSpec.instances, List.getElem?_mapIdx, Function.comp_def]

end Tree

namespace Pass

variable {p : Pass} {tag : String} {shape : Shape}

theorem follows_added {t : Tree} (hs : t.Sane) (tag : String) (shape : Shape) :
    (t.addNode shape.type (setup t tag shape.settings)).1.Follows
      (t.addedNode shape.type (setup t tag shape.settings)) shape where
  type := rfl
  properties := rfl
  inputs := Tree.types_instances _ _ _
  outputs := Tree.types_instances _ _ _
  rest := by
    intro i s spec hi hspec _
    change (SocketSpec.instances shape.type.inputs .input (t.supply + 1))[i]? = some s at hi
    rw [SocketSpec.instances, List.getElem?_mapIdx, hspec] at hi
    cases hi
    refine ⟨rfl, ?_⟩
    rw [Tree.addNode_eq]
    exact Tree.feedOf?_of_supply_le hs (show t.supply ≤ t.supply + 1 + i by omega)

/-- What getting a node adds to a tidy tree: that node at most, outside of every
frame. -/
structure Fetches (p p' : Pass) : Prop where
  adds : Tree.Adds p.tree p'.tree
  counted : p'.tree.generatedCount + p.created = p.tree.generatedCount + p'.created
  gathers : ∀ F, p.tree.Framed → Tree.Gathers F p.tree p'.tree
  groups : p'.groups = p.groups

theorem fetches_made {type : NodeType} {settings : List (String × String)} (hs : p.tree.Sane)
    (htag : Tag.isTag tag = true) : Fetches p (p.made tag type settings) where
  adds := .addNode hs
  counted := by
    have : (p.tree.addNode type (setup p.tree tag settings)).1.generatedCount =
        p.tree.generatedCount + 1 := by
      rw [Tree.generatedCount_eq, Tree.outline_addNode, List.countP_append,
        ← Tree.generatedCount_eq, List.countP_singleton]
      exact congrArg _ (if_pos htag)
    show (p.tree.addNode type (setup p.tree tag settings)).1.generatedCount + p.created =
      p.tree.generatedCount + (p.created + 1)
    omega
  gathers := fun _ hf => .addNode hf hs _ _
  groups := rfl

/-- A node for a tag can always be had if the editor has its type. -/
theorem nodeFor_tidy (hp : p.Sound) (ht : p.tree.Tidy) (htag : Tag.isTag tag = true)
    (hshape : Tag.Shapes tag shape) (hd : (shape.settings.map Prod.fst).Nodup)
    (hoffers : p.tree.editor.offers shape.type = true) :
    ∃ id p₁ n, nodeFor tag shape.type shape.settings p = (.ok id, p₁) ∧
      Tree.Keeps (· ≠ id) p.tree p₁.tree ∧ Fetches p p₁ ∧
      p₁.tree.node? id = some n ∧ n.name = tag ∧ p₁.tree.Follows n shape := by
  rw [nodeFor_run]
  cases hi : p.index.lookup tag with
  | none =>
    dsimp only
    rw [makeNode_run, if_pos hoffers]
    refine ⟨_, _, p.tree.addedNode shape.type (setup p.tree tag shape.settings), rfl,
      Tree.keeps_others_addNode hp.sane, fetches_made hp.sane htag, ?_, rfl,
      follows_added hp.sane tag shape⟩
    show (p.tree.addNode _ _).1.node? _ = _
    rw [Tree.node?_addNode hp.sane.nodesBelow, if_pos rfl]
  | some id =>
    obtain ⟨-, n, hn, hname⟩ := hp.found tag id hi
    obtain ⟨shape', hshape', hfollows⟩ := ht.drawn id n hn (by rw [hname]; exact htag)
    rw [hname] at hshape'
    cases hshape'.unique hshape
    have hself : p.tree.modifyNode id (refresh shape.settings) = p.tree := by
      apply Tree.modifyNode_eq_self
      intro m hm hid
      have := Tree.node?_of_mem hp.sane.nodes hm
      rw [hid, hn] at this
      cases this
      apply refresh_of_has
      intro s hs
      rw [Node.property?, hfollows.properties]
      exact Ordered.get?_insertAll_of_mem hd hs
    dsimp only
    rw [hn]
    dsimp only
    rw [if_pos hfollows.type]
    refine ⟨id, _, n, rfl, ?_, ?_, ?_, hname, ?_⟩
    · show Tree.Keeps _ p.tree (p.tree.modifyNode id _)
      rw [hself]
      exact .refl
    · have htree : (p.reused shape.settings id).tree = p.tree := hself
      refine ⟨by rw [htree]; exact .refl, by rw [htree]; rfl, fun F hf => ?_, rfl⟩
      rw [htree]
      exact .of_outline hf rfl
    · show (p.tree.modifyNode id _).node? id = _
      rw [hself]
      exact hn
    · show (p.tree.modifyNode id _).Follows n shape
      rw [hself]
      exact hfollows

end Pass

end FormulaGraph
