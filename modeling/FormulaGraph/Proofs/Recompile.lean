import FormulaGraph.Proofs.Pass.Finish
import FormulaGraph.Proofs.Pass.ReplayCalls
import FormulaGraph.Proofs.Typed

/-!
Compiling the same text with the same options a second time. The second pass
finds every node of the first under its tag, so it makes and removes none and
changes nothing but the frames that nodes are in.
-/

namespace FormulaGraph

open Run

namespace Tree

variable {t t' : Tree}

theorem map_orphan_eq (hd : (t.nodes.map (·.id)).Nodup) :
    (t.nodes.map Node.orphan).map some = (t.nodes.map (·.id)).map t.bare? := by
  rw [List.map_map, List.map_map]
  apply List.map_congr_left
  intro n hn
  show some n.orphan = t.bare? n.id
  rw [bare?, node?_of_mem hd hn]
  rfl

theorem flat_ext (hd : (t.nodes.map (·.id)).Nodup) (ids : t'.nodes.map (·.id) = t.nodes.map (·.id))
    (nodes : ∀ id, t'.bare? id = t.bare? id) (editor : t'.editor = t.editor)
    (links : t'.links = t.links) (boundary : t'.boundary = t.boundary)
    (active : t'.active = t.active) (supply : t'.supply = t.supply) : t'.flat = t.flat := by
  have horphan : t'.nodes.map Node.orphan = t.nodes.map Node.orphan := by
    apply List.map_injective_iff.mpr (Option.some_injective Node)
    rw [map_orphan_eq hd, map_orphan_eq (ids ▸ hd), ids]
    exact List.map_congr_left fun id _ => nodes id
  unfold flat
  rw [horphan, editor, links, boundary, active, supply]

end Tree

namespace Pass

variable {p p' q : Pass} {t T : Tree} {options : Options} {v : Operand} {tag : String} {id : NodeId}

theorem lookup_of_unique {l : List (String × NodeId)} (hmem : (tag, id) ∈ l)
    (hu : ∀ e ∈ l, e.1 = tag → e.2 = id) : l.lookup tag = some id := by
  cases h : l.lookup tag with
  | none =>
    rw [List.lookup_eq_none_iff] at h
    have := h _ hmem
    simp at this
  | some x =>
    have hx : (tag, x) ∈ l := mem_of_lookup h
    rw [← hu _ hx rfl]

/-- The nodes that a pass has used are the ones their tags find afterwards. -/
theorem leads_of_finished (hp : p.Sound) (hf : Finished options v p T) : Leads p T where
  sane := hf.sane
  keeps := hf.keeps.mono fun _ h => kept_of_settled hp h
  found := by
    intro id hu n hn
    obtain ⟨n', hn', horphan⟩ := hf.keeps.node? (.inr hu) hn
    have hname : n'.name = n.name := show n'.orphan.name = n.orphan.name by rw [horphan]
    refine ⟨?_, n', hn', Node.core_of_orphan horphan⟩
    obtain ⟨m, hm, hi, -⟩ := hp.used id hu
    rw [hn] at hm
    cases hm
    apply lookup_of_unique
    · refine mem_tagIndex.mpr ⟨n', Tree.mem_of_node? hn', ?_, ?_⟩
      · rw [hname]
        exact (hp.found _ _ hi).1
      · rw [hname, Tree.id_of_node? hn']
    · intro e he heq
      obtain ⟨k, hk, htag, rfl⟩ := mem_tagIndex.mp he
      obtain ⟨k', hk', hid, hname', -⟩ := hf.origin hk
      obtain ⟨m, hm, hi', -⟩ := hp.used k.id (hf.tagged k hk htag)
      have hkm := Tree.node?_of_mem hp.sane.nodes hk'
      rw [hid, hm] at hkm
      cases hkm
      have heq : k.name = n.name := heq
      rw [hname', heq, hi] at hi'
      exact (Option.some.inj hi').symm

theorem Echoes.flat (he : Echoes T p q) (hf : Finished options v p T) : q.tree.flat = T.flat := by
  refine Tree.flat_ext hf.sane.nodes he.ids ?_ (he.editor.trans hf.editor.symm) he.links he.boundary
    (he.active.trans hf.active.symm) he.supply
  intro id
  have hface : (q.tree.node? id).map Node.face = (T.node? id).map Node.face := by
    by_cases hid : p.Framed id
    · rw [he.framed id hid]
      exact (face_of_bare? (hf.keeps.nodes id (.inr hid.1))).symm
    · exact he.unframed id hid
  have hcore := he.cores id
  unfold Tree.bare?
  cases hq : q.tree.node? id with
  | none =>
    rw [hq] at hcore
    rw [Option.map_eq_none_iff.mp hcore.symm]
  | some n =>
    rw [hq] at hcore hface
    obtain ⟨m, hm, hmc⟩ := Option.map_eq_some_iff.mp hcore.symm
    rw [hm] at hface ⊢
    exact congrArg some (Node.orphan_of_core hmc.symm (Option.some.inj hface))

theorem Grouped.of_flat {t' : Tree} (h : t'.flat = t.flat) (hg : t.Grouped) : t'.Grouped :=
  hg.keeps (Tree.keeps_of_flat h (D := fun _ => True)) trivial trivial
    (show t'.flat.boundary = t.flat.boundary by rw [h])

theorem assign_of_assigned {s : Socket} {target : Handle}
    (hb : q.tree.boundarySocket? s.id = some s) (ha : q.tree.Assigned s v)
    (ht : target.kind = .output ∧ target.socket = ⟨.groupOutput, s.id⟩) :
    assign target v q = (.ok (), q) := by
  cases v with
  | handle h =>
    rw [assign_handle ht.1, if_neg ha.1, if_pos (by rw [ht.2]; exact ha.2)]
  | literal l =>
    obtain ⟨hfree, hd, value, hvalue, hdefault⟩ := ha
    rw [assign_literal ht.1 (by rw [ht.2]; exact hb) hd hvalue]
    unfold storedTree
    rw [if_pos hdefault, Tree.disconnect_eq_self hfree]

/-- The group output is in its place the second time. -/
theorem settleOutput_again (hp : p.Sound) (hf : Finished options v p T) (he : Echoes T p q)
    (counts : HandleCounts) : settleOutput { q with counts } = (.ok (), { q with counts }) := by
  have hbare := Tree.bare?_of_flat (he.flat hf)
  have hnodup : (q.tree.nodes.map (·.id)).Nodup := he.ids ▸ hf.sane.nodes
  obtain ⟨a, ha, hkept⟩ := hp.active
  obtain ⟨k, hk⟩ := node?_of_kept hp hkept
  obtain ⟨n, hn, -⟩ := hf.keeps.node? hkept hk
  obtain ⟨anchor, hanchor, horphan⟩ := Tree.node?_of_bare? (hbare a) hn
  have hnode : q.tree.node? (q.tree.active.getD .groupInput) = some anchor := by
    rw [he.active, ha]
    exact hanchor
  have hself : q.tree.modifyNode .groupOutput (following anchor) = q.tree := by
    apply Tree.modifyNode_eq_self
    intro g hg hid
    have hgq := Tree.node?_of_mem hnodup hg
    rw [hid] at hgq
    obtain ⟨g', hg', horphan'⟩ := Tree.node?_of_bare? (hbare .groupOutput).symm hgq
    have hposition : g'.orphan.position = n.orphan.nextPosition 70 (-120) :=
      hf.position a n g' (hf.active.trans ha) hn hg'
    rw [horphan', ← horphan] at hposition
    unfold following
    rw [show anchor.nextPosition 70 (-120) = g.position from hposition.symm]
  rw [settleOutput_run (p := { q with counts }) hnode]
  dsimp only
  rw [hself]

/-- Every generated node is in use the second time. -/
theorem stale_again (hf : Finished options v p T) (he : Echoes T p q)
    (counts : HandleCounts) : stale { q with counts } = [] := by
  have hnodup : (q.tree.nodes.map (·.id)).Nodup := he.ids ▸ hf.sane.nodes
  rw [stale_eq, List.map_eq_nil_iff, List.filter_eq_nil_iff]
  intro n hn h
  rw [Bool.and_eq_true, Bool.not_eq_true'] at h
  obtain ⟨n', hn', horphan⟩ := Tree.node?_of_bare?
    (Tree.bare?_of_flat (he.flat hf) n.id).symm (Tree.node?_of_mem hnodup hn)
  have hname : n'.name = n.name := show n'.orphan.name = n.orphan.name by rw [horphan]
  have hu := hf.tagged n' (Tree.mem_of_node? hn') (by rw [hname]; exact h.1)
  rw [Tree.id_of_node? hn', ← he.used] at hu
  have hcontains : q.used.contains n.id = true := List.contains_iff_mem.mpr hu
  rw [hcontains] at h
  exact Bool.noConfusion h.2

theorem conclude_again (hp : p.Sound) (hf : Finished options v p T) (he : Echoes T p q)
    (counts : HandleCounts) (kind : Kind) : conclude kind { q with counts } =
      (.ok ⟨T.generatedCount, 0, 0, kind⟩, { q with counts }) := by
  unfold conclude
  rw [bind_of_ok (settleOutput_again hp hf he counts), bind_of_ok (get_run _),
    bind_of_ok dropStale_run, stale_again hf he counts]
  show (Except.ok (Report.mk q.tree.generatedCount q.created 0 kind), _) = _
  rw [Tree.generatedCount_of_flat (he.flat hf), he.created]
  rfl

/-- The end of a pass changes nothing the second time. -/
theorem finish_again (hp : p.Sound) (hf : Finished options v p T) (he : Echoes T p q) :
    ∃ q', finish options v q = (.ok ⟨T.generatedCount, 0, 0, v.kind⟩, q') ∧ q'.tree = q.tree := by
  have hflat := he.flat hf
  have hgrouped : q.tree.Grouped := Grouped.of_flat hflat hf.grouped
  obtain ⟨s, hb, htype, hassigned⟩ := hf.socket
  let q₁ : Pass := { q with counts := q.counts.bump .output }
  have hboundary : q.tree.boundary = T.boundary := he.boundary
  have hb' : q.tree.boundaryNamed? .output options.outputName = some s := by
    rw [← hb]
    unfold Tree.boundaryNamed?
    rw [hboundary]
  have houtput : output options.outputName (outputKindFor options.dialect v.kind) q =
      (.ok (q.outputHandle s.id options.outputName), q₁) :=
    output_of_named hgrouped hb' (by
      rw [he.editor, ← hf.editor]
      exact htype)
  have hassign : assign (q.outputHandle s.id options.outputName) v q₁ = (.ok (), q₁) := by
    refine assign_of_assigned (s := s) ?_ (hassigned.congr ?_) ⟨rfl, rfl⟩
    · exact Tree.boundarySocket?_of_mem hgrouped.distinct (Tree.mem_of_boundaryNamed? hb')
    · show q.tree.sourceOf? s.id = _
      unfold Tree.sourceOf? Tree.feedOf?
      rw [he.links]
  refine ⟨q₁, ?_, rfl⟩
  unfold finish
  rw [bind_of_ok houtput, bind_of_ok hassign, conclude_again hp hf he q₁.counts]

theorem echoes_start {counts : HandleCounts} {t₁ : Tree} (hg : T.Grouped)
    (heditor : T.editor = t₁.editor) (hactive : t₁.active = some .groupInput) :
    Echoes T { start t with tree := t₁, counts } { start T with counts } where
  counts := rfl
  literals := rfl
  results := rfl
  used := rfl
  constants := rfl
  created := rfl
  index := rfl
  editor := heditor
  links := rfl
  boundary := rfl
  supply := rfl
  active := by
    obtain ⟨n, hn, -⟩ := hg.input
    have : T.contains .groupInput = true := Tree.contains_iff.mpr ⟨n, hn⟩
    show (T.setActive _).active = t₁.active
    rw [hactive]
    simp [Tree.setActive, this]
  ids := rfl
  cores := fun _ => rfl
  framed := by
    rintro id ⟨h, -⟩
    cases h
  unframed := fun _ _ => rfl

theorem ready_of_evaluate {constantNodes : Bool} {inputs : Inputs} {term : Term} {w : TermValue}
    (h : evaluate constantNodes inputs term p = (.ok w, p')) (hs : p'.SettledAll w.operands) :
    p'.Ready w.toOperand := by
  match w with
  | .number x => exact ⟨_, rfl⟩
  | .operand (.handle g) => exact hs g (List.mem_singleton_self _)
  | .operand (.literal l) => exact scalar_of_evaluate h

theorem synthesis_again {unknowns : List String} {term : Term} {r : Report} (hs : t.Sane)
    (hg : t.Grouped) (h : synthesis unknowns term options (start t) = (.ok r, p')) :
    p'.tree.editor = t.editor ∧
    ∃ q', synthesis unknowns term options (start p'.tree) =
        (.ok ⟨r.nodeCount, 0, 0, r.resultKind⟩, q') ∧ q'.tree.flat = p'.tree.flat := by
  rw [synthesis_eq] at h
  obtain ⟨inputs, p₁, hopen, hrest⟩ := bind_eq_ok.mp h
  obtain ⟨w, p₂, heval, hend⟩ := bind_eq_ok.mp hrest
  have hg₀ : (start t).tree.Grouped := ⟨hg.input, hg.output, hg.distinct⟩
  obtain ⟨t₁, counts, rfl, hr, hinputs, hagain⟩ := openInputs_spec (hs.setActive _) hg₀ hopen
  have hp₁ : Sound { start t with tree := t₁, counts } := sound_start hs hg hr
  obtain ⟨hp₂, hgrows, hready, hreplay⟩ := replays_evaluate hinputs term hp₁ w p₂ heval
  obtain ⟨hf, -, hcount, -, -, hkind⟩ := finish_spec hp₂ (ready_of_evaluate heval hready) hend
  have heditor : p'.tree.editor = t.editor :=
    (hf.editor.trans hgrows.editor).trans (show t₁.editor = t.editor from hr.editor)
  refine ⟨heditor, ?_⟩
  have hopen' : openInputs unknowns options (start p'.tree) =
      (.ok inputs, { start p'.tree with counts }) := by
    refine hagain (start p'.tree) ⟨hf.grouped.input, hf.grouped.output, hf.grouped.distinct⟩ heditor
      rfl ?_
    show p'.tree.socketsOn .input = t₁.socketsOn .input
    rw [hf.inputs]
    unfold Tree.socketsOn
    rw [hgrows.boundary]
  obtain ⟨a, hactive, ha⟩ := hp₁.active
  have ha : a = .groupInput := ha.resolve_right fun h => by cases h
  obtain ⟨q₂, hq₂, he₂⟩ := hreplay p'.tree _ (leads_of_finished hp₂ hf)
    (echoes_start hf.grouped (heditor.trans hr.editor.symm) (ha ▸ hactive))
  obtain ⟨q', hfinish, htree⟩ := finish_again hp₂ hf he₂
  refine ⟨q', ?_, htree ▸ he₂.flat hf⟩
  rw [synthesis_eq, bind_of_ok hopen', bind_of_ok hq₂, hfinish, hcount, hkind]

end Pass

namespace Tree

theorem realize_again {unknowns : List String} {term : Term} {options : Options} {t t' : Tree}
    {r : Report} (hs : t.Sane) (hg : t.Grouped)
    (h : realize unknowns term options t = (.ok r, t')) :
    ∃ t'', realize unknowns term options t' = (.ok ⟨r.nodeCount, 0, 0, r.resultKind⟩, t'') ∧
      t''.flat = t'.flat := by
  rw [realize_run] at h
  cases hu : term.unavailable? t.editor with
  | some f =>
    rw [hu] at h
    cases h
  | none =>
    rw [hu] at h
    dsimp only at h
    rcases hrun : Pass.synthesis unknowns term options (Pass.start t) with ⟨r' | r', p'⟩
    · rw [hrun] at h
      cases h
    · rw [hrun] at h
      cases h
      obtain ⟨heditor, q', hagain, hflat⟩ := Pass.synthesis_again hs hg hrun
      refine ⟨q'.tree, ?_, hflat⟩
      rw [realize_run, heditor, hu]
      dsimp only
      rw [hagain]

/-- Compiling once more changes nothing: it makes and removes no node, reports
as many nodes and the same kind, and leaves every node, link, boundary socket
and the active node as they are. Only the frames that nodes are in may change. -/
theorem compile_again {text : String} {options : Options} {t t₁ : Tree} {r₁ : Report}
    (hs : t.Sane) (hg : t.Grouped) (h : compile text options t = (.ok r₁, t₁)) :
    ∃ r₂ t₂, compile text options t₁ = (.ok r₂, t₂) ∧ r₂.created = 0 ∧ r₂.removed = 0 ∧
      r₂.nodeCount = r₁.nodeCount ∧ r₂.resultKind = r₁.resultKind ∧ t₂.flat = t₁.flat := by
  rw [compile_run] at h
  cases hread : Typed.read text options with
  | error fault =>
    rw [hread] at h
    cases h
  | ok typed =>
    obtain ⟨plain, term⟩ := typed
    rw [hread] at h
    obtain ⟨t₂, hagain, hflat⟩ := realize_again hs hg h
    refine ⟨⟨r₁.nodeCount, 0, 0, r₁.resultKind⟩, t₂, ?_, rfl, rfl, rfl, rfl, hflat⟩
    rw [compile_run, hread]
    exact hagain

theorem compile_again_by_components :
    ∃ r₁ t₁, compile "tanh([x,y,2])-3" { dialect := .vector } (empty .shader) = (.ok r₁, t₁) ∧
      r₁.created = 10 ∧
      ∃ r₂ t₂, compile "tanh([x,y,2])-3" { dialect := .vector } t₁ = (.ok r₂, t₂) ∧
        r₂.created = 0 ∧ r₂.removed = 0 ∧ r₂.nodeCount = r₁.nodeCount ∧
        r₂.resultKind = r₁.resultKind ∧ t₂.flat = t₁.flat := by
  have hr : (compile "tanh([x,y,2])-3" { dialect := .vector } (empty .shader)).1 =
      .ok ⟨10, 10, 0, .vector⟩ := by decide +kernel
  have h := Prod.mk.eta (p := compile "tanh([x,y,2])-3" { dialect := .vector } (empty .shader))
  rw [hr] at h
  exact ⟨_, _, h.symm, rfl, compile_again (sane_empty _) (grouped_empty _) h.symm⟩

end Tree

end FormulaGraph
