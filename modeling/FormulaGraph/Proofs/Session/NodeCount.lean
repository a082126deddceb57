import FormulaGraph.Proofs.Session.Runs
import FormulaGraph.Proofs.Session.Storage

/-!
The node count that a session reports. A pass over a formula counts the
generated nodes of the tree that it leaves, and a call that is skipped leaves
the count with the tree. A pass over blank text reports no nodes, although all
that were generated stay.
-/

namespace FormulaGraph

open Run

variable {options : Options}

theorem Pass.nodeCount_of_synthesis {unknowns : List String} {term : Term} {p p' : Pass}
    {report : Report} (h : synthesis unknowns term options p = (.ok report, p')) :
    report.nodeCount = p'.tree.generatedCount := by
  unfold synthesis at h
  obtain ⟨inputs, p₁, -, h⟩ := bind_eq_ok.mp h
  obtain ⟨-, p₂, -, h⟩ := bind_eq_ok.mp h
  obtain ⟨value, p₃, -, h⟩ := bind_eq_ok.mp h
  obtain ⟨target, p₄, -, h⟩ := bind_eq_ok.mp h
  obtain ⟨-, p₅, -, h⟩ := bind_eq_ok.mp h
  obtain ⟨-, p₆, -, h⟩ := bind_eq_ok.mp h
  obtain ⟨created, p₇, -, h⟩ := bind_eq_ok.mp h
  obtain ⟨removed, p₈, -, h⟩ := bind_eq_ok.mp h
  cases h
  rfl

namespace Tree

variable {t t' : Tree} {report : Report}

theorem nodeCount_of_realize {unknowns : List String} {term : Term}
    (h : realize unknowns term options t = (.ok report, t')) :
    report.nodeCount = t'.generatedCount := by
  rw [realize_run] at h
  split at h
  · cases h
  · obtain ⟨hreport, rfl⟩ := Prod.mk.inj h
    exact Pass.nodeCount_of_synthesis (eq_of_fst hreport)

theorem nodeCount_of_compile {text : String} (h : compile text options t = (.ok report, t')) :
    report.nodeCount = t'.generatedCount := by
  rw [compile_run] at h
  split at h
  · exact nodeCount_of_realize h
  · cases h

theorem generatedCount_clear (name : String) :
    ((t.keepInputs []).releaseOutput name).generatedCount = t.generatedCount := by
  have hinputs : (t.keepInputs []).generatedCount = t.generatedCount :=
    generatedCount_of_outline (redresses_keepInputs []).outline
  unfold releaseOutput
  split <;> exact hinputs

theorem generatedCount_writeText (text : String) :
    (t.writeText text).generatedCount = t.generatedCount := by
  have hheld : ∀ (t : Tree) (id : NodeId),
      (t.modifyNode id (holding text)).generatedCount = t.generatedCount := fun t id =>
    generatedCount_of_outline (Redresses.modifyNode (f := holding text) fun n _ =>
      ⟨rfl, rfl, fun _ => alike_holding text n⟩).outline
  cases hfound : t.nodeNamed? textFrameName with
  | some n => rw [writeText_of_found hfound, hheld]
  | none =>
    rw [writeText_of_missing hfound, hheld, addNode_eq]
    unfold generatedCount
    rw [List.countP_append, List.countP_singleton]
    have hname : Tag.isTag (t.addedNode .frame
        { name := some textFrameName, position := ⟨-1000, 0⟩ }).name = false :=
      not_isTag_textFrameName
    rw [hname]
    rfl

end Tree

namespace Session

variable {result : Option Report}

/-- What a pass reports is the number of generated nodes, or none for blank
text, which removes none. -/
theorem reported_pass {s : Session} {t : Tree} (h : (s.pass t).1 = .ok result) :
    (Text.allBlank s.text = false → reported (s.pass t).1 = (s.pass t).2.generatedCount) ∧
      (Text.allBlank s.text = true → reported (s.pass t).1 = 0 ∧
        (s.pass t).2.generatedCount = t.generatedCount) := by
  constructor
  · intro htext
    rw [pass_of_text htext] at h ⊢
    cases hc : (Tree.compile s.text s.options.asTyped (t.writeText s.text)).1 with
    | error fault =>
      rw [hc] at h
      cases h
    | ok report =>
      have hcount := Tree.nodeCount_of_compile (eq_of_fst hc)
      rw [← hcount]
      rfl
  · intro hblank
    rw [pass_of_blank hblank]
    exact ⟨rfl, (Tree.generatedCount_clear _).trans (Tree.generatedCount_writeText _)⟩

/-- The count that a session holds is right for a text, or that text is blank. -/
def Bound.Counts (b : Bound) (text : String) : Prop :=
  b.session.outcome.nodeCount = if Text.allBlank text then 0 else b.tree.generatedCount

/-- The count of the last success still holds. -/
def Bound.Settled (b : Bound) : Prop :=
  ∀ last, b.session.settled = some last → b.Counts last.1

namespace Bound.Settled

variable {b : Bound}

/-- Bringing a session up to date keeps this, and a success counts the nodes for
the text of the session. -/
theorem update (h : b.Settled) : (Session.update b).2.Settled ∧
    (Session.update b).2.session.text = b.session.text ∧
    ∀ result, (Session.update b).1 = .ok result →
      (Session.update b).2.Counts b.session.text ∧ (Text.allBlank b.session.text = true →
        (Session.update b).2.tree.generatedCount = b.tree.generatedCount) := by
  cases hcurrent : b.session.isCurrent with
  | true =>
    rw [update_of_current hcurrent]
    obtain ⟨last, hlast, hsame⟩ := (Option.any_eq_true _ _).mp hcurrent
    have htext := beq_iff_eq.mp (Bool.and_eq_true_iff.mp hsame).1
    exact ⟨h, rfl, fun _ _ => ⟨htext ▸ h last hlast, fun _ => rfl⟩⟩
  | false =>
    obtain ⟨outcome, hcount, hrun⟩ := update_of_changed hcurrent
    rw [hrun]
    cases hresult : (b.session.pass b.tree).1 with
    | error fault => exact ⟨nofun, rfl, nofun⟩
    | ok result =>
      have hcounts : Counts ⟨{ b.session with
          settled := some (b.session.text, b.session.options), outcome },
          (b.session.pass b.tree).2⟩ b.session.text ∧ (Text.allBlank b.session.text = true →
            (b.session.pass b.tree).2.generatedCount = b.tree.generatedCount) := by
        obtain ⟨htext, hblank⟩ := reported_pass hresult
        unfold Counts
        dsimp only
        rw [hcount]
        cases hb : Text.allBlank b.session.text with
        | false => exact ⟨htext hb, nofun⟩
        | true => exact ⟨(hblank hb).1, fun _ => (hblank hb).2⟩
      refine ⟨fun last hlast => ?_, rfl, fun _ _ => hcounts⟩
      cases hlast
      exact hcounts.1

theorem prepare (h : b.Settled) (c : Call) : Settled { b with session := c.prepare b.session } := by
  cases c with
  | recompile => exact nofun
  | _ => exact h

theorem after (h : b.Settled) (calls : List Call) : (b.after calls).Settled := by
  induction calls generalizing b with
  | nil => exact h
  | cons c calls ih =>
    refine ih (b := (c.step b).2) ?_
    rw [c.step_eq]
    exact (h.prepare c).update.1

end Bound.Settled

/-- A session on a tree that nothing else edits, after any calls and one more
that succeeds. The count that it holds is the number of generated nodes, unless
its text is blank: then the count is zero, and the call has removed none of the
generated nodes. -/
theorem step_counts (t : Tree) (options : Options) (calls : List Call) (c : Call)
    {result : Option Report}
    (h : (c.step (Bound.after ⟨{ options }, t⟩ calls)).1 = .ok result) :
    let before := Bound.after ⟨{ options }, t⟩ calls
    let after := (c.step before).2
    (Text.allBlank after.session.text = false →
      after.session.outcome.nodeCount = after.tree.generatedCount) ∧
    (Text.allBlank after.session.text = true → after.session.outcome.nodeCount = 0 ∧
      after.tree.generatedCount = before.tree.generatedCount) := by
  intro before
  have hbefore : before.Settled := Bound.Settled.after (b := ⟨{ options }, t⟩) nofun calls
  rw [c.step_eq] at h ⊢
  obtain ⟨-, htext, hcounts⟩ := (hbefore.prepare c).update
  obtain ⟨hcounts, hkept⟩ := hcounts result h
  dsimp only
  rw [htext]
  unfold Bound.Counts at hcounts
  refine ⟨fun htext => ?_, fun hblank => ?_⟩
  · rwa [if_neg (by simp [htext])] at hcounts
  · rw [if_pos hblank] at hcounts
    exact ⟨hcounts, hkept hblank⟩

/-- A pass fails after it has made nodes, and the next one removes them. -/
theorem step_counts_after_failure :
    ∃ before after, before = Bound.after
        ⟨{ options := Options.declare {} "v" .vector }, .empty .geometry⟩
        [.setText "a+b", .setText "a*b+min(v,1)"] ∧
      after = ((Call.setText "-a").step before).2 ∧
      before.session.outcome.nodeCount = 0 ∧ before.tree.generatedCount = 3 ∧
      ((Call.setText "-a").step before).1 = .ok (some ⟨2, 2, 3, .scalar⟩) ∧
      after.session.outcome.nodeCount = after.tree.generatedCount := by
  have hok : ((Call.setText "-a").step (Bound.after
      ⟨{ options := Options.declare {} "v" .vector }, .empty .geometry⟩
      [.setText "a+b", .setText "a*b+min(v,1)"])).1 = .ok (some ⟨2, 2, 3, .scalar⟩) := by
    decide +kernel
  have htext : Text.allBlank ((Call.setText "-a").step (Bound.after
      ⟨{ options := Options.declare {} "v" .vector }, .empty .geometry⟩
      [.setText "a+b", .setText "a*b+min(v,1)"])).2.session.text = false := by
    decide +kernel
  obtain ⟨hcount, -⟩ := step_counts _ _ _ _ hok
  exact ⟨_, _, rfl, rfl, by decide +kernel, by decide +kernel, hok, hcount htext⟩

/-- Blank text leaves a generated node, and the session counts none. -/
theorem blank_text_uncounted :
    ((Call.setText "").step ((Bound.new .geometry {}).after [.setText "a+b"])).1 = .ok none ∧
      ((Bound.new .geometry {}).after [.setText "a+b", .setText ""]).session.outcome.nodeCount = 0 ∧
      ((Bound.new .geometry {}).after [.setText "a+b", .setText ""]).tree.generatedCount = 1 := by
  decide +kernel

end Session

end FormulaGraph
