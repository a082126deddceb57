import FormulaGraph.Proofs.History
import FormulaGraph.Proofs.Pass.Flow

/-!
The generated nodes after a pass. Each has a name of its own and, unless it is a
frame, leads to the output; and the report accounts for them: those before the
pass, the ones it made and the ones it took away.
-/

namespace FormulaGraph

open Relation

namespace Pass

variable {p : Pass} {t T : Tree} {options : Options} {v : Operand} {inputs : Inputs}

namespace Finished

/-- What is left and what is removed are all the generated nodes. -/
theorem generatedCount (hf : Finished options v p T) :
    T.generatedCount + (stale p).length = p.tree.generatedCount := by
  have hleft : T.generatedCount =
      (p.tree.outline.filter (·.id ∉ stale p)).countP fun o => Tag.isTag o.name := by
    rw [Tree.generatedCount_eq, hf.outline, List.countP_map]
    rfl
  have hgone : (stale p).length = (p.tree.outline.filter fun o => !decide (o.id ∉ stale p)).countP
      fun o => Tag.isTag o.name := by
    rw [List.countP_filter, stale_eq_outline, List.length_map, ← List.countP_eq_length_filter]
    refine List.countP_congr fun o ho => ?_
    rw [← stale_eq_outline]
    simp only [Bool.and_eq_true, Bool.not_eq_true', decide_eq_false_iff_not, not_not]
    constructor
    · rintro ⟨htag, hu⟩
      exact ⟨htag, mem_stale.mpr ⟨o, ho, rfl, htag, by simpa using hu⟩⟩
    · rintro ⟨htag, hmem⟩
      obtain ⟨-, -, -, -, hu⟩ := mem_stale.mp hmem
      exact ⟨htag, by simpa using hu⟩
  rw [hleft, hgone, Tree.generatedCount_eq]
  exact (List.countP_eq_countP_filter_add _ _ _).symm

theorem index (hp : p.Sound) (hf : Finished options v p T) {n : Node} (hn : n ∈ T.nodes)
    (htag : Tag.isTag n.name = true) : p.index.lookup n.name = some n.id := by
  obtain ⟨m, hm, hi, -⟩ := hp.used n.id (hf.tagged n hn htag)
  obtain ⟨k, hk, hid, hname, -⟩ := hf.origin hn
  cases (hid ▸ Tree.node?_of_mem hp.sane.nodes hk).symm.trans hm
  rwa [hname] at hi

theorem nodup_names (hp : p.Sound) (hf : Finished options v p T) :
    ((T.nodes.filter fun n => Tag.isTag n.name).map (·.name)).Nodup := by
  refine List.Nodup.map_on ?_ (hf.sane.nodes.of_map.filter _)
  intro n hn m hm hname
  obtain ⟨hn, htag⟩ := List.mem_filter.mp hn
  obtain ⟨hm, htag'⟩ := List.mem_filter.mp hm
  have hid := (hf.index hp hn htag).symm.trans (hname ▸ hf.index hp hm htag')
  exact List.inj_on_of_nodup_map hf.sane.nodes hn hm (Option.some.inj hid)

theorem feeds_of_drives (hp : p.Sound) (hf : Finished options v p T) {a b : NodeId}
    (h : p.Drives a b) : T.Feeds a b := by
  obtain ⟨ha, hb, n, x, r, hn, hx, hr, rfl⟩ := h
  obtain ⟨n', hn', ho⟩ := hf.keeps.node? (kept_of_settled hp hb) hn
  have hsource : T.sourceOf? x = some r := by
    rw [hf.keeps.feeds b n x (kept_of_settled hp hb) hn hx, hr]
    intro r' hr'
    cases hr.symm.trans hr'
    exact kept_of_settled hp ha
  obtain ⟨l, hl, rfl⟩ := Option.map_eq_some_iff.mp hsource
  obtain ⟨-, m, hm, hmem⟩ := hf.sane.ends l (Tree.mem_of_feedOf? hl)
  rw [Tree.target_of_feedOf? hl] at hmem
  rw [← (Node.alike_of_orphan ho).inputs] at hx
  exact ⟨l, Tree.mem_of_feedOf? hl, rfl, hf.sane.owner _ _ m n' x hm hn'
    (List.mem_append_left _ hmem) (List.mem_append_left _ hx)⟩

end Finished

theorem Opens.woven (h : Opens t inputs p) : p.Woven (inputs.map Prod.snd) where
  toDistinct := h.orderly.distinct
  sound := h.orderly.sound
  inputs := h.orderly.inputs
  sourced := by
    rw [h.start]
    intro e he
    cases he

end Pass

namespace Tree

variable {t t' : Tree} {text : String} {options : Options}

/-- Links lead from a node to an output. -/
def LeadsOut (t : Tree) (x : NodeId) (name : String) : Prop :=
  ∃ s, t.boundaryNamed? .output name = some s ∧
    ∃ l ∈ t.links, l.target = ⟨.groupOutput, s.id⟩ ∧ ReflTransGen t.Feeds x l.source.node

/-- A node that flows to the value of a pass leads to its output. -/
theorem leadsOut_of_reaches {p : Pass} {w : Pass.TermValue} {x : NodeId} (hp : p.Sound)
    (hf : Pass.Finished options w.toOperand p t) (h : p.Reaches x w.operands) :
    t.LeadsOut x options.outputName := by
  obtain ⟨g, hg, hflow⟩ := h
  obtain rfl : w = .operand (.handle g) := by
    cases w with
    | number => cases hg
    | operand o => rw [List.mem_singleton.mp hg]
  obtain ⟨s, hs, -, -, hsource⟩ := hf.socket
  obtain ⟨l, hl, hsocket⟩ := Option.map_eq_some_iff.mp hsource
  obtain ⟨-, m, hm, hmem⟩ := hf.sane.ends l (mem_of_feedOf? hl)
  obtain ⟨k, hk, hshown⟩ := hasInput_of_mem hf.grouped (mem_of_boundaryNamed? hs)
    (of_boundaryNamed? hs).1
  have htarget : l.target = ⟨.groupOutput, s.id⟩ := by
    rw [target_of_feedOf? hl] at hmem
    have hnode := hf.sane.owner _ _ m k s.id hm hk (List.mem_append_left _ hmem)
      (List.mem_append_left _ hshown)
    calc l.target = ⟨l.target.node, l.target.socket⟩ := rfl
      _ = ⟨.groupOutput, s.id⟩ := by rw [hnode, target_of_feedOf? hl]
  refine ⟨s, hs, l, mem_of_feedOf? hl, htarget, ?_⟩
  rw [hsocket]
  exact ReflTransGen.mono (fun _ _ => hf.feeds_of_drives hp) _ _ hflow

/-- After any history of compiling, a call that succeeds leaves no generated node
twice and none that is idle, and reports how many there are. -/
theorem compile_census {report : Report} (h : Compiled t)
    (hc : compile text options t = (.ok report, t')) :
    ((t'.nodes.filter fun n => Tag.isTag n.name).map (·.name)).Nodup ∧
      (∀ n ∈ t'.nodes, Tag.isTag n.name = true → n.type ≠ .frame →
        t'.LeadsOut n.id options.outputName) ∧
      report.nodeCount = t'.generatedCount ∧
      report.nodeCount + report.removed = t.generatedCount + report.created := by
  rcases compile_staged h.tidy text options with ⟨fault, hrun⟩ | ⟨plain, term, r, p, -, -, hrun, hs⟩
  · cases hc.symm.trans hrun
  · cases hc.symm.trans hrun
    cases hs with
    | @done _ inputs w p₁ p₂ _ opens opened evaluates orderly adds concludes =>
      have finished := concludes.finished
      refine ⟨finished.nodup_names orderly.sound, fun n hn htag htype => ?_,
        concludes.nodeCount, ?_⟩
      · obtain ⟨-, -, -, -, hused⟩ := Pass.drains_evaluate
          (fun e he => List.mem_map_of_mem (f := Prod.snd) he) term opened.woven nofun w p₂
          evaluates
        rcases hused n.id (finished.tagged n hn htag) with hu | ⟨m, hm, hframe⟩ | hflow
        · rw [opened.start] at hu
          cases hu
        · obtain ⟨n', hn', horphan⟩ := finished.keeps.node? (.inr (finished.tagged n hn htag)) hm
          cases hn'.symm.trans (node?_of_mem finished.sane.nodes hn)
          have hsame : n.type = m.type := show n.orphan.type = m.orphan.type by rw [horphan]
          exact absurd (hsame.trans hframe) htype
        · exact leadsOut_of_reaches orderly.sound finished hflow
      · have hbefore : p₁.tree.generatedCount = t.generatedCount :=
          generatedCount_of_outline (opened.redrawn.outline (h.tidy.sane.setActive _))
        have hnone : p₁.created = 0 := by rw [opened.start]; rfl
        have hmade := adds.counted
        have hleft := finished.generatedCount
        rw [concludes.nodeCount, concludes.removed, concludes.created]
        omega

theorem compile_census_after_failure :
    let failed := compile "r*b" (Options.declare {} "r" .rotation)
      (compile "a+b*c" {} (empty .geometry)).2
    failed.1 = .error (.unsupportedKinds .mult [.rotation, .scalar]) ∧
      ∃ report t', compile "-max(b,a,2)/b" {} failed.2 = (.ok report, t') ∧
        report = ⟨7, 7, 2, .scalar⟩ ∧
        ((t'.nodes.filter fun n => Tag.isTag n.name).map (·.name)).Nodup ∧
        (∀ n ∈ t'.nodes, Tag.isTag n.name = true → n.type ≠ .frame → t'.LeadsOut n.id "Result") ∧
        report.nodeCount = t'.generatedCount ∧
        report.nodeCount + report.removed = failed.2.generatedCount + report.created := by
  intro failed
  have hr : (compile "-max(b,a,2)/b" {} failed.2).1 = .ok ⟨7, 7, 2, .scalar⟩ := by decide +kernel
  have ht := ((Compiled.empty .geometry).compile "a+b*c" {}).compile "r*b"
    (Options.declare {} "r" .rotation)
  have h := Run.eq_of_fst hr
  obtain ⟨names, leads, count, sum⟩ := compile_census ht h
  exact ⟨by decide +kernel, _, _, h, rfl, names, leads, count, sum⟩

end Tree

end FormulaGraph
