import FormulaGraph.Proofs.Pass.Blueprints
import FormulaGraph.Proofs.Pass.Nodes
import FormulaGraph.Proofs.Pass.Tags

/-!
Trees in which every generated node is what its name says: the type, the
properties and the inputs in use follow from the tag, and the other inputs are
as new. Passes leave such trees, whether they succeed or fail.
-/

namespace FormulaGraph

open Run

structure Shape where
  type : NodeType
  settings : List (String × String)
  /-- The inputs that are given arguments. -/
  slots : List Nat

namespace Blueprint

variable {α β : Type}

def shape (b : Blueprint α) : Shape := ⟨b.type, b.settings, b.inputs.map Prod.fst⟩

theorem shape_map (g : α → β) (b : Blueprint α) : (b.map g).shape = b.shape := by
  simp [shape, map, Function.comp_def]

end Blueprint

namespace Tag

variable {name : String}

def isVectorMark (marker : String) : Bool := marker.toList.head? == some Kind.vector.letter

inductive Shapes (name : String) : Shape → Prop where
  | call {f : Function} {ms : List String} {b : Blueprint Bool} (eq : name = operation f.name ms)
      (plain : ∀ m ∈ ms, Plain m) (node : Blueprint.native id f (ms.map isVectorMark) = some b) :
      Shapes name b.shape
  | separation {ms : List String} (eq : name = operation "sepaxyz" ms) :
      Shapes name ⟨.separateXYZ, [], [0]⟩
  | constant {text : String} (eq : name = constantMark ++ text) : Shapes name ⟨.value, [], []⟩
  | frame {tag : String} (eq : name = frameMark ++ tag) : Shapes name ⟨.frame, [], []⟩

theorem letter?_of_call {op : String} {ms : List String} (h : name = operation op ms) :
    letter? name = some 'F' := by
  rw [h, letter?_operation]

theorem letter?_of_constant {text : String} (h : name = constantMark ++ text) :
    letter? name = some 'C' := by
  rw [h, letter?_constant]

theorem letter?_of_frame {tag : String} (h : name = frameMark ++ tag) :
    letter? name = some 'G' := by
  rw [h, letter?_frame]

theorem not_call_of_separation {f : Function} {ms ms' : List String}
    (h : name = operation f.name ms) (h' : name = operation "sepaxyz" ms') : False :=
  Pass.not_isSeparation f ms ⟨ms', h.symm.trans h'⟩

/-- A tag has one shape. -/
theorem Shapes.unique {s s' : Shape} (h : Shapes name s) (h' : Shapes name s') : s = s' := by
  have letters : ∀ {a b : Char}, letter? name = some a → letter? name = some b → a = b := by
    intro a b ha hb
    rw [ha] at hb
    exact Option.some.inj hb
  cases h with
  | call eq plain node =>
    cases h' with
    | call eq' plain' node' =>
      obtain ⟨hname, rfl⟩ := operation_injective (Function.no_bracket_name _)
        (Function.no_bracket_name _) plain plain' (eq.symm.trans eq')
      cases Function.name_injective hname
      rw [node] at node'
      cases node'
      rfl
    | separation eq' => exact (not_call_of_separation eq eq').elim
    | constant eq' =>
      exact absurd (letters (letter?_of_call eq) (letter?_of_constant eq')) (by decide)
    | frame eq' => exact absurd (letters (letter?_of_call eq) (letter?_of_frame eq')) (by decide)
  | separation eq =>
    cases h' with
    | call eq' => exact (not_call_of_separation eq' eq).elim
    | separation eq' => rfl
    | constant eq' =>
      exact absurd (letters (letter?_of_call eq) (letter?_of_constant eq')) (by decide)
    | frame eq' => exact absurd (letters (letter?_of_call eq) (letter?_of_frame eq')) (by decide)
  | constant eq =>
    cases h' with
    | call eq' => exact absurd (letters (letter?_of_constant eq) (letter?_of_call eq')) (by decide)
    | separation eq' =>
      exact absurd (letters (letter?_of_constant eq) (letter?_of_call eq')) (by decide)
    | constant eq' => rfl
    | frame eq' =>
      exact absurd (letters (letter?_of_constant eq) (letter?_of_frame eq')) (by decide)
  | frame eq =>
    cases h' with
    | call eq' => exact absurd (letters (letter?_of_frame eq) (letter?_of_call eq')) (by decide)
    | separation eq' =>
      exact absurd (letters (letter?_of_frame eq) (letter?_of_call eq')) (by decide)
    | constant eq' =>
      exact absurd (letters (letter?_of_frame eq) (letter?_of_constant eq')) (by decide)
    | frame eq' => rfl

end Tag

namespace Tree

/-- A node that has a shape, its other inputs as new. -/
structure Follows (t : Tree) (n : Node) (shape : Shape) : Prop where
  type : n.type = shape.type
  properties : n.properties = Ordered.empty.insertAll shape.settings
  inputs : n.inputs.map (·.type) = shape.type.inputs.map (·.type)
  outputs : n.outputs.map (·.type) = shape.type.outputs.map (·.type)
  rest : ∀ i s spec, n.inputs[i]? = some s → shape.type.inputs[i]? = some spec →
    i ∉ shape.slots → s.default = spec.default ∧ t.feedOf? s.id = none

structure Tidy (t : Tree) : Prop where
  sane : t.Sane
  grouped : t.Grouped
  source : ∀ n, t.node? .groupInput = some n → n.inputs = []
  sink : ∀ n, t.node? .groupOutput = some n → n.outputs = []
  drawn : ∀ id n, t.node? id = some n → Tag.isTag n.name = true →
    ∃ shape, Tag.Shapes n.name shape ∧ t.Follows n shape

variable {t t' : Tree} {D : NodeId → Prop} {id : NodeId} {n n' : Node} {shape : Shape}

theorem Follows.congr (h : t.Follows n shape) (ho : n'.orphan = n.orphan)
    (hf : ∀ s ∈ n.inputs, t.feedOf? s.id = none → t'.feedOf? s.id = none) :
    t'.Follows n' shape := by
  have hin : n'.inputs = n.inputs := show n'.orphan.inputs = n.orphan.inputs by rw [ho]
  have hout : n'.outputs = n.outputs := show n'.orphan.outputs = n.orphan.outputs by rw [ho]
  refine ⟨?_, ?_, by rw [hin]; exact h.inputs, by rw [hout]; exact h.outputs, ?_⟩
  · rw [← h.type]
    exact show n'.orphan.type = n.orphan.type by rw [ho]
  · rw [← h.properties]
    exact show n'.orphan.properties = n.orphan.properties by rw [ho]
  · intro i s spec hs hspec hi
    rw [hin] at hs
    obtain ⟨hdefault, hfree⟩ := h.rest i s spec hs hspec hi
    exact ⟨hdefault, hf s (List.mem_of_getElem? hs) hfree⟩

theorem Follows.keeps (h : t.Follows n shape) (hk : Keeps D t t') (hid : D id)
    (hn : t.node? id = some n) (ho : n'.orphan = n.orphan) : t'.Follows n' shape := by
  refine h.congr ho fun s hs hfree => ?_
  have hnone : t.sourceOf? s.id = none := by
    rw [sourceOf?, hfree]
    rfl
  have := hk.feeds id n s.id hid hn (List.mem_map_of_mem hs) fun r hr => by
    rw [hnone] at hr
    cases hr
  rw [hnone, sourceOf?, Option.map_eq_none_iff] at this
  exact this

namespace Tidy

/-- The generated nodes that are kept stay tidy. -/
theorem keeps (ht : t.Tidy) (hk : Keeps D t t') (hs : t'.Sane) (hg : t'.Grouped)
    (hi : D .groupInput)
    (ho : ∀ n', t'.node? .groupOutput = some n' → ∃ n, t.node? .groupOutput = some n ∧
      n'.outputs = n.outputs)
    (hd : ∀ id n, t'.node? id = some n → Tag.isTag n.name = true → ¬D id →
      ∃ shape, Tag.Shapes n.name shape ∧ t'.Follows n shape) : t'.Tidy where
  sane := hs
  grouped := hg
  source := by
    intro n' hn'
    obtain ⟨n, hn, horphan⟩ := node?_of_bare? (hk.nodes _ hi).symm hn'
    rw [← ht.source n hn]
    exact show n'.orphan.inputs = n.orphan.inputs by rw [horphan]
  sink := by
    intro n' hn'
    obtain ⟨n, hn, hout⟩ := ho n' hn'
    rw [hout]
    exact ht.sink n hn
  drawn := by
    intro id n' hn' htag
    by_cases hid : D id
    · obtain ⟨n, hn, horphan⟩ := node?_of_bare? (hk.nodes _ hid).symm hn'
      have hname : n.name = n'.name := show n.orphan.name = n'.orphan.name by rw [horphan]
      obtain ⟨shape, hshape, hfollows⟩ := ht.drawn id n hn (by rw [hname]; exact htag)
      exact ⟨shape, hname ▸ hshape, hfollows.keeps hk hid hn horphan.symm⟩
    · exact hd id n' hn' htag hid

theorem step (ht : t.Tidy) (hk : Keeps (· ≠ id) t t') (hs : t'.Sane) (hg : t'.Grouped)
    (hid : id.isGroup = false) (hn : t'.node? id = some n)
    (hown : ∃ shape, Tag.Shapes n.name shape ∧ t'.Follows n shape) : t'.Tidy := by
  obtain ⟨hi, ho⟩ := ne_of_not_group hid
  refine ht.keeps hk hs hg hi.symm ?_ ?_
  · intro n' hn'
    obtain ⟨m, hm, horphan⟩ := node?_of_bare? (hk.nodes _ ho.symm).symm hn'
    exact ⟨m, hm, show n'.orphan.outputs = m.orphan.outputs by rw [horphan]⟩
  · intro x m hm _ hx
    have hx : x = id := not_not.mp hx
    rw [hx, hn] at hm
    cases hm
    exact hown

theorem setActive (ht : t.Tidy) (x : Option NodeId) : (t.setActive x).Tidy :=
  ⟨ht.sane.setActive x, ⟨ht.grouped.input, ht.grouped.output, ht.grouped.distinct⟩, ht.source,
    ht.sink, fun id n hn htag => by
      obtain ⟨shape, hshape, hf⟩ := ht.drawn id n hn htag
      exact ⟨shape, hshape, hf.congr rfl fun _ _ h => h⟩⟩

/-- Edits of the boundary do not reach generated nodes. -/
theorem reboundary {X : SocketId → Prop} (ht : t.Tidy) (hr : Reboundary X t t') : t'.Tidy where
  sane := hr.sane
  grouped := hr.grouped
  source := by
    intro n' hn'
    rw [hr.node?] at hn'
    obtain ⟨n, hn, rfl⟩ := Option.map_eq_some_iff.mp hn'
    unfold mirrored
    rw [if_pos (id_of_node? hn)]
    exact ht.source n hn
  sink := by
    intro n' hn'
    rw [hr.node?] at hn'
    obtain ⟨n, hn, rfl⟩ := Option.map_eq_some_iff.mp hn'
    have hid := id_of_node? hn
    unfold mirrored
    rw [if_neg (by rw [hid]; exact groupOutput_ne_groupInput), if_pos hid]
    exact ht.sink n hn
  drawn := by
    intro id n' hn' htag
    obtain ⟨hi, ho⟩ := ne_of_not_group (hr.grouped.not_group hn' htag)
    rw [hr.node?] at hn'
    obtain ⟨n, hn, rfl⟩ := Option.map_eq_some_iff.mp hn'
    have hid := id_of_node? hn
    have hmirrored : t'.mirrored n = n := by
      unfold mirrored
      rw [if_neg (by rw [hid]; exact hi), if_neg (by rw [hid]; exact ho)]
    rw [hmirrored] at htag ⊢
    obtain ⟨shape, hshape, hf⟩ := ht.drawn id n hn htag
    refine ⟨shape, hshape, hf.congr rfl fun s _ hfree => ?_⟩
    refine List.find?_eq_none.mpr fun l hl => ?_
    exact List.find?_eq_none.mp hfree l (hr.links.subset hl)

end Tidy

theorem tidy_empty (editor : Editor) : (empty editor).Tidy where
  sane := sane_empty editor
  grouped := grouped_empty editor
  source := fun _ hn => (mem_empty (mem_of_node? hn)).1
  sink := fun _ hn => (mem_empty (mem_of_node? hn)).2.1
  drawn := by
    intro id n hn htag
    rcases List.mem_cons.mp (mem_of_node? hn) with rfl | h
    · exact absurd htag (by decide)
    · rw [List.mem_singleton.mp h] at htag
      exact absurd htag (by decide)

end Tree

end FormulaGraph
