import FormulaGraph.Proofs.Afresh
import FormulaGraph.Proofs.Bake.Names
import FormulaGraph.Proofs.Grouping

/-!
Trees that were compiled into and that sessions have worked on, in any order.
All that is in them is generated but for the group nodes and the text frame,
which has no sockets and nothing inside.
-/

namespace FormulaGraph.Tree

/-- Trees that calls have made from an empty one, whatever became of the single
calls. Sessions come and go: a call may be one of any session. -/
inductive Worked : Tree → Prop where
  | empty (editor : Editor) : Worked (empty editor)
  | compile {t : Tree} (h : Worked t) (text : String) (options : Options) :
      Worked (compile text options t).2
  | call {t : Tree} (h : Worked t) (s : Session) (c : Session.Call) :
      Worked (c.step ⟨s, t⟩).2.tree

/-- What baking takes for granted. -/
structure Bakeable (t : Tree) : Prop extends Dedicated t where
  noted : t.notes = [] ∨ ∃ text, t.notes = [(textFrameName, text)]
  blank : ∀ n ∈ t.nodes, n.isOwn = true → n.socketIds = []
  framed : t.Framed
  legible : t.Legible

theorem Untagged.legible {t : Tree} (hu : t.Untagged) : t.Legible := by
  constructor
  all_goals
    intro x n hn htag
    rw [hu n (mem_of_node? hn)] at htag
    cases htag

theorem bakeable_empty (editor : Editor) : (empty editor).Bakeable where
  toDedicated := dedicated_empty editor
  noted := .inl (notes_empty editor)
  blank := by
    have hno : ∀ n ∈ (empty editor).nodes, n.isOwn = false := by
      cases editor <;> decide
    intro n hn hown
    rw [hno n hn] at hown
    cases hown
  framed := framed_empty editor
  legible := (untagged_empty editor).legible

theorem nodes_releaseOutput (t : Tree) (name : String) :
    (t.releaseOutput name).nodes = t.nodes := by
  unfold releaseOutput
  split <;> rfl

namespace Bakeable

variable {t : Tree} (h : t.Bakeable)
include h

theorem compile (text : String) (options : Options) : (compile text options t).2.Bakeable := by
  obtain ⟨hd, hnotes⟩ := h.toDedicated.compile text options
  refine ⟨hd, by rw [hnotes]; exact h.noted, ?blank, ?framed, ?legible⟩
  case blank =>
    intro n' hn' hown
    obtain ⟨n, hn, hstays⟩ := forall₂_mem_right (Respects.compile h.regular text options).own
      (List.mem_filter.mpr ⟨hn', hown⟩)
    obtain ⟨hn, hown⟩ := List.mem_filter.mp hn
    rw [(Node.alike_of_orphan hstays.orphan).socketIds]
    exact h.blank n hn hown
  all_goals
    rcases compile_staged h.tidy text options with ⟨fault, hrun⟩ | ⟨_, _, r, p, -, -, hrun, hs⟩
    all_goals rw [hrun]
  · exact h.framed
  · exact hs.framed h.tidy h.framed
  · exact h.legible
  · exact hs.legible h.legible

theorem writeText (text : String) : (t.writeText text).Bakeable := by
  obtain ⟨hd, hnotes⟩ := h.toDedicated.writeText h.noted text
  have hblank : ∀ n ∈ (t.writeText text).nodes, n.id = t.textFrameId → n.socketIds = [] := by
    intro n hn hid
    cases hfound : t.nodeNamed? textFrameName with
    | some m =>
      have hm := mem_of_nodeNamed? hfound
      have hm' : holding text m ∈ (t.writeText text).nodes := by
        rw [writeText_of_found hfound]
        refine List.mem_map.mpr ⟨m, hm, ?_⟩
        rw [if_pos (beq_self_eq_true _)]
      rw [textFrameId_of_found hfound] at hid
      rw [List.inj_on_of_nodup_map hd.tidy.sane.nodes hn hm' hid]
      exact h.blank m hm (h.isOwn_of_name hm (name_of_nodeNamed? hfound))
    | none =>
      rw [textFrameId_of_missing hfound] at hid
      have hm' : t.textFrame text ∈ (t.writeText text).nodes := by
        rw [writeText_eq hfound h.tidy.sane.nodesBelow]
        exact List.mem_append_right _ (List.mem_singleton_self _)
      rw [List.inj_on_of_nodup_map hd.tidy.sane.nodes hn hm' hid]
      exact socketIds_addedNode
  refine ⟨hd, .inr ⟨text, hnotes⟩, ?_, ?_, ?_⟩
  · intro n hn hown
    by_cases hid : n.id = t.textFrameId
    · exact hblank n hn hid
    · exact h.blank n (mem_of_mem_writeText h.tidy.sane hn hid) hown
  · have hold : ∀ {u : Tree} {x : NodeId}, u.Framed → (u.modifyNode x (holding text)).Framed := by
      intro u x hu
      refine (Gathers.of_outline (F := fun _ => True) hu ?_).framed
      unfold outline modifyNode
      dsimp only
      rw [List.map_map]
      refine List.map_congr_left fun n _ => ?_
      dsimp only [Function.comp]
      split <;> rfl
    cases hfound : t.nodeNamed? textFrameName with
    | some n =>
      rw [writeText_of_found hfound]
      exact hold h.framed
    | none =>
      rw [writeText_of_missing hfound]
      exact hold (Gathers.addNode (F := fun _ => True) h.framed h.tidy.sane _ _).framed
  · refine (Inherits.beside (keeps_writeText h.tidy.sane text) fun n hn => ?_).legible h.legible
    rw [h.regular.name_of_textFrameId (mem_of_node? hn) (id_of_node? hn), not_isTag_textFrameName]

theorem clear (name : String) : ((t.keepInputs []).releaseOutput name).Bakeable := by
  obtain ⟨-, hd, hnotes, -, -⟩ := h.toDedicated.clear name
  obtain ⟨hkept, -⟩ := keepInputs_spec h.tidy.sane h.tidy.grouped []
  have hnodes := nodes_releaseOutput (t.keepInputs []) name
  refine ⟨hd, by rw [hnotes]; exact h.noted, ?_, ?_, ?_⟩
  · intro n hn hown
    have hg : n.id.isGroup = false := by
      rw [Node.isOwn, Bool.and_eq_true] at hown
      simpa using hown.1
    have hfound := node?_of_mem hkept.sane.nodes (hnodes ▸ hn)
    rw [hkept.node?_of_not_group hg] at hfound
    exact h.blank n (mem_of_node? hfound) hown
  · refine (Gathers.of_outline (F := fun _ => True) h.framed ?_).framed
    rw [outline, hnodes, ← outline, hkept.outline h.tidy.sane]
  · refine Inherits.legible (fun x n hn htag => ?_) h.legible
    rw [node?, hnodes, ← node?] at hn
    exact Inherits.reboundary hkept x n hn htag

theorem pass (s : Session) : (s.pass t).2.Bakeable := by
  have hwritten := h.writeText s.text
  cases hblank : Text.allBlank s.text with
  | true =>
    rw [Session.pass_of_blank hblank]
    exact hwritten.clear s.options.outputName
  | false =>
    rw [Session.pass_of_text hblank]
    dsimp only
    exact hwritten.compile s.text s.options.asTyped

theorem call (s : Session) (c : Session.Call) : (c.step ⟨s, t⟩).2.tree.Bakeable := by
  rw [c.step_eq]
  cases hcurrent : (c.prepare s).isCurrent with
  | true =>
    rw [Session.update_of_current hcurrent]
    exact h
  | false =>
    obtain ⟨outcome, -, hrun⟩ := Session.update_of_changed (b := ⟨c.prepare s, t⟩) hcurrent
    rw [hrun]
    exact h.pass (c.prepare s)

end Bakeable

theorem Worked.bakeable {t : Tree} (h : Worked t) : t.Bakeable := by
  induction h with
  | empty editor => exact bakeable_empty editor
  | compile _ text options ih => exact ih.compile text options
  | call _ s c ih => exact ih.call s c

end FormulaGraph.Tree
