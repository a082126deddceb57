import FormulaGraph.Proofs.History
import FormulaGraph.Proofs.HostNodes
import FormulaGraph.Proofs.Session.Runs
import FormulaGraph.Proofs.Session.Storage

/-!
A tree that one session alone edits reflects it. One frame holds the text of the
session, whatever became of its passes. After a success the output reads as it
would in a new tree, and blank text leaves no inputs and nothing that feeds the
output.
-/

namespace FormulaGraph

open Run

variable {report : Report}

namespace Pass

variable {constantNodes : Bool} {inputs known : Inputs} {options : Options}

mutual

/-- A term is evaluated only if its variables are inputs. -/
theorem lookup_of_evaluate (term : Term) {p p' : Pass} {value : TermValue}
    (h : evaluate constantNodes inputs term p = (.ok value, p')) :
    ∀ n ∈ term.occurrences, inputs.lookup n ≠ none := by
  match term with
  | .constant x => exact nofun
  | .name name =>
    intro n hn hnone
    rw [Term.occurrences, List.mem_singleton] at hn
    unfold evaluate at h
    rw [← hn, hnone] at h
    cases h
  | .call f args =>
    unfold evaluate at h
    obtain ⟨values, p₁, hargs, -⟩ := bind_eq_ok.mp h
    exact lookup_of_evaluateAll args hargs

theorem lookup_of_evaluateAll (terms : List Term) {p p' : Pass} {values : List TermValue}
    (h : evaluateAll constantNodes inputs terms p = (.ok values, p')) :
    ∀ n ∈ Term.occurrencesAll terms, inputs.lookup n ≠ none := by
  match terms with
  | [] => exact nofun
  | term :: rest =>
    unfold evaluateAll at h
    obtain ⟨value, p₁, hterm, h⟩ := bind_eq_ok.mp h
    obtain ⟨values, p₂, hrest, -⟩ := bind_eq_ok.mp h
    intro n hn
    rcases List.mem_append.mp hn with hn | hn
    · exact lookup_of_evaluate term hterm n hn
    · exact lookup_of_evaluateAll rest hrest n hn

end

theorem mem_of_declareInputs {names : List String} {p p' : Pass}
    (h : declareInputs options known names p = (.ok inputs, p')) {n : String}
    (hn : inputs.lookup n ≠ none) : n ∈ names ∨ known.lookup n ≠ none := by
  induction names generalizing known p with
  | nil =>
    cases h
    exact .inr hn
  | cons name rest ih =>
    obtain ⟨handle, p₁, -, h⟩ := bind_eq_ok.mp h
    rcases ih h with hmem | hknown
    · exact .inl (List.mem_cons_of_mem _ hmem)
    · rw [List.lookup_cons] at hknown
      split at hknown
      · next heq => exact .inl (by rw [beq_iff_eq.mp heq]; exact List.mem_cons_self)
      · exact .inr hknown

theorem occurrences_of_synthesis {unknowns : List String} {term : Term} {p p' : Pass}
    (h : synthesis unknowns term options p = (.ok report, p')) :
    term.occurrences ⊆ unknowns := by
  rw [synthesis_eq] at h
  obtain ⟨inputs, p₁, hopen, h⟩ := bind_eq_ok.mp h
  obtain ⟨value, p₂, heval, -⟩ := bind_eq_ok.mp h
  obtain ⟨inputs', p₃, hdeclare, hopen⟩ := bind_eq_ok.mp hopen
  cases hopen
  intro n hn
  exact (mem_of_declareInputs hdeclare (lookup_of_evaluate term heval n hn)).resolve_right (by simp)

end Pass

namespace Tree

variable {t t' : Tree} {text : String} {options : Options}

/-- What can be built in one tidy tree can be built in another, and the output
reads the same. -/
theorem realize_alike {term : Term} {unknowns : List String} (ht : t.Tidy) (ht' : t'.Tidy)
    (he : t'.editor = t.editor) (hw : term.WellMade)
    (h : (realize unknowns term options t).1 = .ok report) :
    ∃ report', (realize unknowns term options t').1 = .ok report' ∧
      ∃ m, ∀ m', ((realize unknowns term options t).2.ReadsOutput options.outputName m' ↔ m' = m) ∧
        ((realize unknowns term options t').2.ReadsOutput options.outputName m' ↔ m' = m) := by
  obtain ⟨-, hended, hlacks⟩ := realize_ends ht hw unknowns options
  obtain ⟨-, hended', -⟩ := realize_ends ht' hw unknowns options
  have hu : term.unavailable? t.editor = none := by
    cases hu : term.unavailable? t.editor with
    | none => rfl
    | some f =>
      rw [hlacks f hu] at h
      cases h
  have ho := Term.unavailable?_eq_none_iff.mp hu
  have hsub : term.occurrences ⊆ unknowns := by
    rw [realize_run, hu] at h
    exact Pass.occurrences_of_synthesis (eq_of_fst h)
  have hend := hended ho
  rw [h] at hend
  have hend' := hended' (by rw [he]; exact ho)
  cases h' : (realize unknowns term options t').1 with
  | error fault =>
    rw [h'] at hend'
    rcases hend' with ⟨-, hnot⟩ | ⟨n, hn, hnot, -⟩
    · exact absurd (he ▸ hend.1) (hnot hsub)
    · exact absurd (hsub hn) hnot
  | ok report' =>
    rw [h'] at hend'
    refine ⟨report', rfl, term.meaning t.editor options, fun m' => ⟨hend.2.2 m', ?_⟩⟩
    rw [← he]
    exact hend'.2.2 m'

theorem compile_alike (ht : t.Tidy) (ht' : t'.Tidy) (he : t'.editor = t.editor)
    (h : (compile text options t).1 = .ok report) :
    ∃ report', (compile text options t').1 = .ok report' ∧
      ∃ m, ∀ m', ((compile text options t).2.ReadsOutput options.outputName m' ↔ m' = m) ∧
        ((compile text options t').2.ReadsOutput options.outputName m' ↔ m' = m) := by
  rw [compile_run] at h ⊢
  rw [compile_run]
  rcases hread : Typed.read text options with fault | ⟨plain, term⟩
  · rw [hread] at h
    cases h
  · rw [hread] at h
    exact realize_alike ht ht' he (Typed.wellMade_of_read hread) h

def notes (t : Tree) : List (String × String) :=
  (t.nodes.filter Node.isOwn).map fun n => (n.name, n.label)

theorem notes_empty (editor : Editor) : (empty editor).notes = [] := by
  cases editor <;> decide

/-- A tree that only sessions have edited. The group nodes have kept their
names, so they are not taken for the text frame. -/
structure Dedicated (t : Tree) : Prop where
  tidy : t.Tidy
  hosted : t.Hosted
  regular : t.Regular
  names : ∀ n ∈ t.nodes, n.id.isGroup = true → n.name ≠ textFrameName

theorem dedicated_empty (editor : Editor) : (empty editor).Dedicated where
  tidy := tidy_empty editor
  hosted := hosted_empty editor
  regular := by
    refine (hosted_empty editor).regular (nested_of_rank (·.index) ?_) ?_
    · cases editor <;> decide
    · cases editor <;> decide
  names := by
    cases editor <;> decide

theorem Tidy.beside {x : NodeId} (h : t.Tidy) (hk : Keeps (· ≠ x) t t') (hs : t'.Sane)
    (hg : t'.Grouped) (hx : x.isGroup = false)
    (htag : ∀ n ∈ t'.nodes, n.id = x → Tag.isTag n.name = false) : t'.Tidy := by
  obtain ⟨hi, ho⟩ := ne_of_not_group hx
  refine h.keeps hk hs hg hi.symm ?_ ?_
  · intro n' hn'
    obtain ⟨m, hm, horphan⟩ := node?_of_bare? (hk.nodes _ ho.symm).symm hn'
    exact ⟨m, hm, show n'.orphan.outputs = m.orphan.outputs by rw [horphan]⟩
  · intro y n hn htagged hy
    rw [htag n (mem_of_node? hn) ((id_of_node? hn).trans (not_not.mp hy))] at htagged
    cases htagged

namespace Dedicated

variable (h : t.Dedicated)
include h

/-- Passes keep a tree to its session. -/
theorem respects (hr : t.Respects t') (ht : t'.Tidy) (hh : t'.Hosted) :
    t'.Dedicated ∧ t'.notes = t.notes := by
  refine ⟨⟨ht, hh, hr.regular hh, ?_⟩, ?_⟩
  · intro n hn hg
    have : n.name ∈ (t.nodes.filter (·.id.isGroup)).map (·.name) := by
      rw [← hr.groupNames]
      exact List.mem_map_of_mem (List.mem_filter.mpr ⟨hn, hg⟩)
    obtain ⟨m, hm, hname⟩ := List.mem_map.mp this
    obtain ⟨hm, hg'⟩ := List.mem_filter.mp hm
    exact hname ▸ h.names m hm hg'
  · unfold notes
    have hnotes : List.Forall₂ (fun n n' : Node => n'.orphan = n.orphan)
        (t.nodes.filter Node.isOwn) (t'.nodes.filter Node.isOwn) :=
      hr.own.imp fun _ _ hs => hs.orphan
    generalize t.nodes.filter Node.isOwn = l, t'.nodes.filter Node.isOwn = l' at hnotes
    induction hnotes with
    | nil => rfl
    | @cons n n' _ _ horphan _ ih =>
      have hname : n'.name = n.name := show n'.orphan.name = n.orphan.name by rw [horphan]
      have hlabel : n'.label = n.label := show n'.orphan.label = n.orphan.label by rw [horphan]
      rw [List.map_cons, List.map_cons, ih, hname, hlabel]

theorem isOwn_of_name {n : Node} (hn : n ∈ t.nodes) (hname : n.name = textFrameName) :
    n.isOwn = true := by
  cases hg : n.id.isGroup with
  | true => exact absurd hname (h.names n hn hg)
  | false => simp [Node.isOwn, hg, hname, not_isTag_textFrameName]

theorem nodeNamed?_of_note {old : String} (hn : t.notes = [(textFrameName, old)]) :
    ∃ n, t.nodeNamed? textFrameName = some n ∧ t.nodes.filter Node.isOwn = [n] := by
  obtain ⟨n, hown, hnote⟩ := List.map_eq_singleton_iff.mp hn
  have hmem : n ∈ t.nodes := (List.mem_filter.mp (hown ▸ List.mem_singleton_self n)).1
  cases hfound : t.nodeNamed? textFrameName with
  | none =>
    have hother := List.find?_eq_none.mp hfound n hmem
    exact absurd (congrArg Prod.fst hnote) (by simpa using hother)
  | some m =>
    have hm := mem_of_nodeNamed? hfound
    have : m ∈ t.nodes.filter Node.isOwn :=
      List.mem_filter.mpr ⟨hm, h.isOwn_of_name hm (name_of_nodeNamed? hfound)⟩
    rw [hown, List.mem_singleton] at this
    exact ⟨m, rfl, this ▸ hown⟩

theorem nodeNamed?_of_no_note (hn : t.notes = []) : t.nodeNamed? textFrameName = none := by
  rw [notes, List.map_eq_nil_iff] at hn
  refine List.find?_eq_none.mpr fun n hmem hname => ?_
  have hname : n.name = textFrameName := by simpa using hname
  have : n ∈ t.nodes.filter Node.isOwn := List.mem_filter.mpr ⟨hmem, h.isOwn_of_name hmem hname⟩
  rw [hn] at this
  cases this

/-- Whether there was a text frame yet or not, there is one note afterwards. -/
theorem notes_writeText (hn : t.notes = [] ∨ ∃ old, t.notes = [(textFrameName, old)])
    (text : String) : (t.writeText text).notes = [(textFrameName, text)] := by
  rcases hn with hnone | ⟨old, hold⟩
  · have hown : (t.textFrame text).isOwn = true := by
      simp [Node.isOwn, id_textFrame, (h.regular.made_supply (Nat.le_refl _)).1, name_textFrame,
        not_isTag_textFrameName]
    rw [writeText_eq (h.nodeNamed?_of_no_note hnone) h.tidy.sane.nodesBelow, notes,
      List.filter_append, List.map_append, ← notes, hnone, List.filter_singleton, hown]
    rfl
  · obtain ⟨n, hfound, hown⟩ := h.nodeNamed?_of_note hold
    have hsame : ∀ m : Node, (if m.id == n.id then holding text m else m).isOwn = m.isOwn := by
      intro m
      split <;> rfl
    rw [writeText_of_found hfound]
    unfold notes modifyNode
    rw [List.filter_map]
    simp only [Function.comp_def, hsame]
    rw [hown]
    simp [holding, name_of_nodeNamed? hfound]

theorem writeText (hn : t.notes = [] ∨ ∃ old, t.notes = [(textFrameName, old)]) (text : String) :
    (t.writeText text).Dedicated ∧ (t.writeText text).notes = [(textFrameName, text)] := by
  have hhosted := h.hosted.writeText text
  have hgroup : t.textFrameId.isGroup = false := by
    refine h.regular.not_isGroup_textFrameId fun n hn => Bool.eq_false_iff.mpr fun hg => ?_
    exact h.names n (mem_of_nodeNamed? hn) hg (name_of_nodeNamed? hn)
  refine ⟨⟨?_, hhosted, h.regular.writeText text, ?_⟩, h.notes_writeText hn text⟩
  · refine h.tidy.beside (keeps_writeText h.tidy.sane text) hhosted.sane hhosted.grouped hgroup ?_
    intro n hmem hid
    rw [h.regular.name_of_textFrameId hmem hid, not_isTag_textFrameName]
  · intro n hmem hg
    refine h.names n (mem_of_mem_writeText h.tidy.sane hmem fun hid => ?_) hg
    rw [hid, hgroup] at hg
    cases hg

theorem compile (text : String) (options : Options) :
    (compile text options t).2.Dedicated ∧ (Tree.compile text options t).2.notes = t.notes :=
  h.respects (.compile h.regular text options) (tidy_compile h.tidy text options)
    (h.hosted.compile text options)

/-- What a pass does to the boundary for blank text. -/
theorem clear (name : String) :
    ((t.keepInputs []).releaseOutput name).editor = t.editor ∧
      ((t.keepInputs []).releaseOutput name).Dedicated ∧
      ((t.keepInputs []).releaseOutput name).notes = t.notes ∧
      ((t.keepInputs []).releaseOutput name).socketsOn .input = [] ∧
      ∀ s, ((t.keepInputs []).releaseOutput name).boundaryNamed? .output name = some s →
        ((t.keepInputs []).releaseOutput name).feedOf? s.id = none := by
  obtain ⟨hkept, hnone, -, -⟩ := keepInputs_spec h.tidy.sane h.tidy.grouped []
  have hinputs : (t.keepInputs []).socketsOn .input = [] := by
    simpa [inputsExcept] using hnone
  have htidy := h.tidy.reboundary hkept
  have hhosted := h.hosted.keepInputs []
  have hrespects := h.regular.respects.keepInputs h.regular []
  unfold releaseOutput
  cases hb : (t.keepInputs []).boundaryNamed? .output name with
  | none =>
    obtain ⟨hd, hn⟩ := h.respects hrespects htidy hhosted
    refine ⟨hrespects.editor, hd, hn, hinputs, fun s hs => ?_⟩
    rw [hb] at hs
    cases hs
  | some s =>
    have hmem := mem_of_boundaryNamed? hb
    have hkeeps : Keeps (· ≠ .groupOutput) (t.keepInputs []) ((t.keepInputs []).disconnect s.id) :=
      keeps_disconnect htidy.sane (hasInput_of_mem htidy.grouped hmem (of_boundaryNamed? hb).1)
        (not_not.mpr rfl)
    have hhosted' := hhosted.disconnect s.id
    have htidy' : ((t.keepInputs []).disconnect s.id).Tidy := by
      refine htidy.keeps hkeeps hhosted'.sane hhosted'.grouped (by decide)
        (fun n hn => ⟨n, hn, rfl⟩) ?_
      intro x n hn htag hx
      have := htidy.grouped.not_group hn htag
      rw [not_not.mp hx] at this
      cases this
    obtain ⟨hd, hn⟩ := h.respects (hrespects.disconnect h.regular (hrespects.boundary s hmem))
      htidy' hhosted'
    refine ⟨hrespects.editor, hd, hn, hinputs, fun s' hs' => ?_⟩
    have : s' = s := Option.some.inj (hs'.symm.trans hb)
    rw [this, feedOf?_disconnect, if_pos rfl]

/-- The text frame is the only node of its name. -/
theorem filter_name (hn : t.notes = [(textFrameName, text)]) :
    ∃ n, t.nodes.filter (·.name == textFrameName) = [n] ∧ n.label = text := by
  obtain ⟨n, hown, hnote⟩ := List.map_eq_singleton_iff.mp hn
  obtain ⟨hname, hlabel⟩ := Prod.mk.inj hnote
  refine ⟨n, ?_, hlabel⟩
  have hfilter : t.nodes.filter (·.name == textFrameName) =
      (t.nodes.filter Node.isOwn).filter (·.name == textFrameName) := by
    rw [List.filter_filter]
    refine List.filter_congr fun m hm => ?_
    by_cases hm' : m.name = textFrameName
    · simp [hm', h.isOwn_of_name hm hm']
    · simp [hm']
  rw [hfilter, hown, List.filter_singleton, hname]
  rfl

end Dedicated

/-- A tree shows what a text comes to. Blank text comes to no inputs and an
output without a feed. Other text compiles in a new tree, and the outputs of the
two trees read the same, as one thing. -/
structure Reflects (t : Tree) (text : String) (options : Options) : Prop where
  blank : Text.allBlank text = true → t.socketsOn .input = [] ∧
    ∀ s, t.boundaryNamed? .output options.outputName = some s → t.feedOf? s.id = none
  text : Text.allBlank text = false →
    ∃ report fresh, compile text options.asTyped (empty t.editor) = (.ok report, fresh) ∧
      ∃ m, ∀ m', (t.ReadsOutput options.outputName m' ↔ m' = m) ∧
        (fresh.ReadsOutput options.outputName m' ↔ m' = m)

theorem Reflects.of_agrees {a b : Options} (h : t.Reflects text a) (hab : a.agrees b = true) :
    t.Reflects text b := by
  have hname := (Options.of_agrees hab).2.2.2.1
  refine ⟨hname ▸ h.blank, fun htext => ?_⟩
  rw [← compile_asTyped_congr hab, ← hname]
  exact h.text htext

end Tree

namespace Session

variable {editor : Editor} {b : Bound}

/-- What holds of a session and its tree between calls: a success that is
remembered is still there in the tree. -/
structure Bound.InStep (editor : Editor) (b : Bound) : Prop where
  editor : b.tree.editor = editor
  dedicated : b.tree.Dedicated
  notes : b.tree.notes = [] ∨ ∃ old, b.tree.notes = [(Tree.textFrameName, old)]
  settled : ∀ last, b.session.settled = some last →
    b.tree.notes = [(Tree.textFrameName, last.1)] ∧ b.tree.Reflects last.1 last.2

theorem Bound.inStep_new (editor : Editor) (options : Options) :
    (Bound.new editor options).InStep editor where
  editor := rfl
  dedicated := Tree.dedicated_empty editor
  notes := .inl (Tree.notes_empty editor)
  settled := nofun

/-- A pass leaves the text in the tree, and what the text comes to if it
succeeds. -/
theorem pass_reflects {s : Session} {t : Tree} (h : t.Dedicated)
    (hn : t.notes = [] ∨ ∃ old, t.notes = [(Tree.textFrameName, old)]) :
    (s.pass t).2.editor = t.editor ∧ (s.pass t).2.Dedicated ∧
      (s.pass t).2.notes = [(Tree.textFrameName, s.text)] ∧
      ∀ report, (s.pass t).1 = .ok report → (s.pass t).2.Reflects s.text s.options := by
  obtain ⟨hd, hnotes⟩ := h.writeText hn s.text
  have heditor := t.editor_writeText s.text
  cases hblank : Text.allBlank s.text with
  | true =>
    obtain ⟨heditor', hcleared, hkept, hinputs, hfree⟩ := hd.clear s.options.outputName
    rw [pass_of_blank hblank]
    refine ⟨heditor'.trans heditor, hcleared, hkept.trans hnotes, fun _ _ => ?_⟩
    refine ⟨fun _ => ⟨hinputs, hfree⟩, fun htext => ?_⟩
    rw [hblank] at htext
    cases htext
  | false =>
    obtain ⟨hcompiled, hkept⟩ := hd.compile s.text s.options.asTyped
    have heditor' := (Tree.Respects.compile hd.regular s.text s.options.asTyped).editor
    rw [pass_of_text hblank]
    dsimp only
    refine ⟨heditor'.trans heditor, hcompiled, hkept.trans hnotes, fun report hok => ?_⟩
    cases hc : (Tree.compile s.text s.options.asTyped (t.writeText s.text)).1 with
    | error fault =>
      rw [hc] at hok
      cases hok
    | ok report =>
      obtain ⟨report', hfresh, m, hreads⟩ :=
        Tree.compile_alike hd.tidy (Tree.tidy_empty (t.writeText s.text).editor) rfl hc
      refine ⟨fun hb => ?_, fun _ => ?_⟩
      · rw [hblank] at hb
        cases hb
      · rw [heditor']
        exact ⟨report', _, eq_of_fst hfresh, m, hreads⟩

/-- Bringing a session up to date. -/
theorem Bound.InStep.update (h : b.InStep editor) :
    (update b).2.InStep editor ∧
      (Session.update b).2.session.text = b.session.text ∧
      (Session.update b).2.session.options = b.session.options ∧
      (Session.update b).2.tree.notes = [(Tree.textFrameName, b.session.text)] ∧
      (∀ report, (Session.update b).1 = .ok report →
        (Session.update b).2.tree.Reflects b.session.text b.session.options) ∧
      ((Session.update b).1 = .ok none → Text.allBlank b.session.text = false →
        (Session.update b).2 = b) := by
  cases hcurrent : b.session.isCurrent with
  | true =>
    rw [update_of_current hcurrent]
    obtain ⟨last, hlast, hsame⟩ := (Option.any_eq_true _ _).mp hcurrent
    obtain ⟨htext, hagrees⟩ := Bool.and_eq_true_iff.mp hsame
    obtain ⟨hnotes, hreflects⟩ := h.settled last hlast
    rw [beq_iff_eq.mp htext] at hnotes hreflects
    exact ⟨h, rfl, rfl, hnotes, fun _ _ => hreflects.of_agrees hagrees, fun _ _ => rfl⟩
  | false =>
    obtain ⟨outcome, -, hrun⟩ := update_of_changed hcurrent
    obtain ⟨heditor, hd, hnotes, hreflects⟩ := pass_reflects (s := b.session) h.dedicated h.notes
    rw [hrun]
    refine ⟨⟨heditor.trans h.editor, hd, .inr ⟨_, hnotes⟩, ?_⟩, rfl, rfl, hnotes, hreflects, ?_⟩
    · intro last hlast
      dsimp only at hlast
      cases hr : (b.session.pass b.tree).1 with
      | error fault =>
        rw [hr] at hlast
        cases hlast
      | ok report =>
        rw [hr] at hlast
        cases hlast
        exact ⟨hnotes, hreflects report hr⟩
    · intro hnone hblank
      rw [pass_of_text hblank] at hnone
      cases hc : (Tree.compile b.session.text b.session.options.asTyped
          (b.tree.writeText b.session.text)).1 with
      | error fault =>
        rw [hc] at hnone
        cases hnone
      | ok report =>
        rw [hc] at hnone
        cases hnone

theorem Bound.InStep.prepare (h : b.InStep editor) (c : Call) :
    Bound.InStep editor { b with session := c.prepare b.session } where
  editor := h.editor
  dedicated := h.dedicated
  notes := h.notes
  settled := by
    cases c with
    | recompile => exact nofun
    | _ => exact h.settled

theorem Bound.InStep.after (h : b.InStep editor) (calls : List Call) :
    (b.after calls).InStep editor := by
  induction calls generalizing b with
  | nil => exact h
  | cons c calls ih =>
    refine ih (b := (c.step b).2) ?_
    rw [c.step_eq]
    exact (h.prepare c).update.1

/-- A session on a tree of its own, after any calls and one more. One node has
the name of the text frame, and it holds the text. If the last call succeeded,
the tree shows what the text comes to under the options. If it was skipped,
nothing changed. -/
theorem step_reflects (editor : Editor) (options : Options) (calls : List Call) (c : Call) :
    let before := (Bound.new editor options).after calls
    let after := (c.step before).2
    after.tree.editor = editor ∧
      (∃ n, after.tree.nodes.filter (·.name == Tree.textFrameName) = [n] ∧
        n.label = after.session.text) ∧
      (∀ report, (c.step before).1 = .ok report →
        after.tree.Reflects after.session.text after.session.options) ∧
      ((c.step before).1 = .ok none → Text.allBlank after.session.text = false →
        after.tree = before.tree ∧ after.session.outcome = before.session.outcome) := by
  intro before
  have hbefore : before.InStep editor := (Bound.inStep_new editor options).after calls
  obtain ⟨hafter, htext, hoptions, hnotes, hreflects, hskipped⟩ := (hbefore.prepare c).update
  dsimp only
  rw [c.step_eq, htext, hoptions]
  refine ⟨hafter.editor, hafter.dedicated.filter_name hnotes, hreflects, ?_⟩
  intro hnone hblank
  rw [hskipped hnone hblank]
  refine ⟨rfl, ?_⟩
  cases c <;> rfl

theorem step_reflects_revert :
    ∃ before after, before = (Bound.new .geometry {}).after [.setText "a+b", .setText "a+"] ∧
      after = ((Call.setText "a+b").step before).2 ∧
      ((Call.setText "a+b").step before).1 = .ok (some ⟨1, 0, 0, .scalar⟩) ∧
      (∃ n, after.tree.nodes.filter (·.name == Tree.textFrameName) = [n] ∧
        n.label = after.session.text) ∧
      after.tree.Reflects after.session.text after.session.options := by
  have hok : ((Call.setText "a+b").step
      ((Bound.new .geometry {}).after [.setText "a+b", .setText "a+"])).1 =
        .ok (some ⟨1, 0, 0, .scalar⟩) := by decide +kernel
  obtain ⟨-, hnode, hreflects, -⟩ :=
    step_reflects .geometry {} [.setText "a+b", .setText "a+"] (.setText "a+b")
  exact ⟨_, _, rfl, rfl, hok, hnode, hreflects _ hok⟩

end Session

end FormulaGraph
