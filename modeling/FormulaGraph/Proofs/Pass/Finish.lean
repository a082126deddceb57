import FormulaGraph.Proofs.Graph.Outward
import FormulaGraph.Proofs.Pass.Inputs

/-!
The end of a pass: the value is routed to the output, the group output is moved
beside the active node, and the nodes that the pass has not used are removed.
Every node in use is kept.
-/

namespace FormulaGraph.Pass

open Run Numeric

variable {v : Operand} {id : NodeId} {t : Tree} {value : Value} {options : Options}
  {target : Handle} {p p' : Pass} {s : Socket} {name : String}

def outputHandle (p : Pass) (x : SocketId) (name : String) : Handle :=
  ⟨.output, p.counts.get .output, ⟨.groupOutput, x⟩, some name⟩

theorem output_run (name : String) (kind : Kind) : output name kind p =
    match kind.socketType? with
    | none => (.error (.outputKind name), p)
    | some type =>
      match Tree.socketFor .output name type p.tree with
      | (.error fault, t) => (.error (.boundary fault), { p with tree := t })
      | (.ok id, t) => (.ok (p.outputHandle id name),
          { p with tree := t, counts := p.counts.bump .output }) := by
  unfold output
  cases kind.socketType? with
  | none => rfl
  | some type =>
    dsimp only
    rw [edit_bind]
    rcases Tree.socketFor .output name type p.tree with ⟨r | id, t⟩ <;> rfl

/-- An output can be had if its kind has a type on the boundary. -/
theorem output_spec (hs : p.tree.Sane) (hg : p.tree.Grouped) (name : String) (kind : Kind) :
    match p.tree.editor.boundaryType? kind with
    | none => ∃ fault, output name kind p = (.error fault, p) ∧
        (fault.faultClass = .type ∨ fault.faultClass = .unavailable)
    | some type => ∃ s t, t.boundaryNamed? .output name = some s ∧ s.type = type ∧
        Tree.Outward p.tree t ∧ output name kind p = (.ok (p.outputHandle s.id name),
          { p with tree := t, counts := p.counts.bump .output }) := by
  rw [output_run]
  unfold Editor.boundaryType?
  cases hk : kind.socketType? with
  | none => exact ⟨_, rfl, .inl rfl⟩
  | some type =>
    dsimp only [Option.bind_some]
    have hadmits := socketFor_admits hs hg .output name type
    cases ha : p.tree.editor.adjust? type with
    | none =>
      rw [ha] at hadmits
      dsimp only at hadmits
      rw [hadmits]
      exact ⟨_, rfl, .inr rfl⟩
    | some wanted =>
      rw [ha] at hadmits
      obtain ⟨x, t, hrun, hadmits⟩ := hadmits
      obtain ⟨s, hnamed, rfl, htype⟩ := hadmits.socket
      rw [hrun]
      refine ⟨s, t, hnamed, htype, .of_reboundary hadmits.redrawn hs hg hadmits.opposite ?_, rfl⟩
      rintro x rfl
      cases hold : p.tree.boundaryNamed? .output name with
      | none =>
        rw [hadmits.fresh hold]
        exact .inl (Nat.le_refl _)
      | some r =>
        rw [hadmits.same r hold]
        exact .inr (Tree.hasInput_of_mem hg (Tree.mem_of_boundaryNamed? hold)
          (Tree.of_boundaryNamed? hold).1)

theorem output_of_named {kind : Kind} (hg : p.tree.Grouped)
    (hb : p.tree.boundaryNamed? .output name = some s)
    (ht : p.tree.editor.boundaryType? kind = some s.type) : output name kind p =
      (.ok (p.outputHandle s.id name), { p with counts := p.counts.bump .output }) := by
  obtain ⟨type, hk, ha⟩ := Option.bind_eq_some_iff.mp ht
  have hadjust : p.tree.adjustType type = .ok s.type := by
    unfold Tree.adjustType
    rw [ha]
  rw [output_run, hk]
  dsimp only
  rw [Tree.socketFor_of_named hg hb hadjust]

def storedTree (t : Tree) (s : Socket) (value : Value) : Tree :=
  if s.default = value.convert s.type then t.disconnect s.id
  else (t.disconnect s.id).modifySocket s.id (Tree.redefault (value.convert s.type))

theorem assign_handle {h : Handle} (ht : target.kind = .output) :
    assign target (.handle h) p =
      if h.kind = .output then (.error (.outputAsValue h.boundaryName), p)
      else if p.tree.sourceOf? target.socket.socket = some h.socket then (.ok (), p)
      else edit .link (Tree.reconnect h.socket target.socket) p := by
  unfold assign
  rw [if_neg (by simp [ht])]
  by_cases hk : h.kind = .output
  · simp only [if_pos hk]
    rfl
  · simp only [if_neg hk]
    by_cases hf : p.tree.sourceOf? target.socket.socket = some h.socket
    · rw [if_pos hf]
      show (if p.tree.sourceOf? target.socket.socket ≠ some h.socket then _ else _ :
        PassM Unit) p = _
      rw [if_neg (not_not.mpr hf)]
      rfl
    · rw [if_neg hf]
      show (if p.tree.sourceOf? target.socket.socket ≠ some h.socket then _ else _ :
        PassM Unit) p = _
      rw [if_pos hf]

theorem assign_literal {l : Literal} (ht : target.kind = .output)
    (hb : p.tree.boundarySocket? target.socket.socket = some s) (hd : s.type.hasDefault = true)
    (hv : l.toValue? = some value) :
    assign target (.literal l) p = (.ok (), { p with tree := storedTree p.tree s value }) := by
  unfold assign
  rw [if_neg (by simp [ht])]
  show storeLiteral .output target.socket.socket l p = _
  have hid : s.id = target.socket.socket := by simpa using List.find?_some hb
  unfold storeLiteral
  rw [bind_of_ok (show getTree p = (.ok p.tree, p) from rfl), hb]
  dsimp only
  rw [if_pos hd, hv]
  dsimp only
  rw [if_pos rfl, ← hid]
  let p₁ : Pass := { p with tree := p.tree.disconnect s.id }
  have hs₁ : p₁.tree.boundarySocket? s.id = some s := by
    rw [hid]
    exact hb
  show discard (edit .boundary (Tree.setSocketDefault s.id value)) p₁ = _
  have hrun : edit .boundary (Tree.setSocketDefault s.id value) p₁ =
      (.ok (decide (s.default ≠ value.convert s.type)),
        { p with tree := storedTree p.tree s value }) := by
    rw [edit_run, Tree.setSocketDefault_run hs₁]
    unfold storedTree
    by_cases hd : s.default = value.convert s.type
    · simp only [if_pos hd]
      simp [hd, Except.mapError, p₁]
    · simp only [if_neg hd]
      simp [hd, Except.mapError, p₁]
  exact discard_of_ok hrun

theorem boundaryNamed?_storedTree (hb : t.boundaryNamed? .output name = some s) :
    (storedTree t s value).boundaryNamed? .output name =
      some (Tree.redefault (value.convert s.type) s) := by
  unfold storedTree
  split
  · rename_i hd
    rw [Tree.redefault, ← hd]
    exact hb
  · rw [Tree.boundaryNamed?_map (t := t) (x := s.id) (f := Tree.redefault _)
      (fun _ => ⟨rfl, rfl⟩) rfl, hb]
    simp

theorem outward_storedTree (hs : t.Sane) (hg : t.Grouped)
    (hb : t.boundaryNamed? .output name = some s) : Tree.Outward t (storedTree t s value) := by
  have hmem := Tree.mem_of_boundaryNamed? hb
  have hside := (Tree.of_boundaryNamed? hb).1
  have hin : t.HasInput ⟨.groupOutput, s.id⟩ := Tree.hasInput_of_mem hg hmem hside
  have hout : Tree.Outward t (t.disconnect s.id) :=
    .of_links hg (hs.disconnect _) rfl rfl rfl rfl fun D hD => Tree.keeps_disconnect hs hin hD
  unfold storedTree
  split
  · exact hout
  · refine hout.trans (.of_reboundary (Tree.reboundary_redefault hout.sane hout.grouped _) hout.sane
      hout.grouped ?_ ?_)
    · refine Tree.socketsOn_map (t := t) (x := s.id) (f := Tree.redefault _) (fun _ => rfl) ?_ rfl
      intro r hr hid
      have : r = s := List.inj_on_of_nodup_map hg.distinct hr hmem hid
      rw [this, hside]
      decide
    · rintro x rfl
      exact .inr hin

theorem feedOf?_storedTree : (storedTree t s value).feedOf? s.id = none := by
  have : (t.disconnect s.id).feedOf? s.id = none := by
    rw [Tree.feedOf?_disconnect, if_pos rfl]
  unfold storedTree
  split
  · exact this
  · exact this

theorem hasDefault_of_scalar {editor : Editor} {dialect : Dialect} {type : SocketType}
    (h : editor.boundaryType? (outputKindFor dialect .scalar) = some type) :
    type.hasDefault = true := by
  cases editor <;> cases dialect <;> cases h <;> rfl

/-- Assigning a value that is ready to an output. -/
theorem assign_spec {u : Unit} (hs : p.tree.Sane) (hg : p.tree.Grouped)
    (hb : p.tree.boundaryNamed? .output name = some s)
    (ht : target.kind = .output ∧ target.socket = ⟨.groupOutput, s.id⟩)
    (hv : ∀ l, v = .literal l → s.type.hasDefault = true ∧ ∃ x, l = .scalar x)
    (h : assign target v p = (.ok u, p')) : ∃ s' t, p' = { p with tree := t } ∧
      Tree.Outward p.tree t ∧ t.boundaryNamed? .output name = some s' ∧ s'.type = s.type ∧
      t.Assigned s' v := by
  cases v with
  | handle g =>
    rw [assign_handle ht.1] at h
    by_cases hk : g.kind = .output
    · rw [if_pos hk] at h
      cases h
    rw [if_neg hk] at h
    split at h
    · rename_i hsource
      cases h
      rw [ht.2] at hsource
      exact ⟨s, p.tree, rfl, .refl hs hg, hb, rfl, hk, hsource⟩
    · rw [edit_reconnect, ht.2] at h
      split at h
      · cases h
      · rename_i hfault
        cases h
        refine ⟨s, _, rfl, .of_links hg (hs.reconnected hfault) rfl rfl rfl rfl fun D hD => ?_, hb,
          rfl, hk, ?_⟩
        · exact Tree.keeps_reconnected hs (Tree.hasInput_of_mem hg (Tree.mem_of_boundaryNamed? hb)
            (Tree.of_boundaryNamed? hb).1) hD
        · rw [Tree.sourceOf?, Tree.feedOf?_reconnected, if_pos rfl]
          rfl
  | literal l =>
    obtain ⟨hd, x, rfl⟩ := hv l rfl
    have hsocket : p.tree.boundarySocket? target.socket.socket = some s := by
      rw [ht.2]
      exact Tree.boundarySocket?_of_mem hg.distinct (Tree.mem_of_boundaryNamed? hb)
    rw [assign_literal ht.1 hsocket hd rfl] at h
    cases h
    exact ⟨_, _, rfl, outward_storedTree hs hg hb, boundaryNamed?_storedTree hb, rfl,
      feedOf?_storedTree, hd, _, rfl, rfl⟩

def following (anchor n : Node) : Node := { n with position := anchor.nextPosition 70 (-120) }

theorem settleOutput_run {anchor : Node}
    (h : p.tree.node? (p.tree.active.getD .groupInput) = some anchor) : settleOutput p =
      (.ok (), { p with tree := p.tree.modifyNode .groupOutput (following anchor) }) := by
  unfold settleOutput
  rw [bind_of_ok (show getTree p = (.ok p.tree, p) from rfl), h]
  rfl

theorem dropStale_run : dropStale p =
    (.ok (stale p).length, { p with tree := (stale p).foldl Tree.removeNode p.tree }) := rfl

/-- The end of a pass, when the value of the term is assigned. -/
def conclude (kind : Kind) : PassM Report := do
  settleOutput
  let created := (← get).created
  let removed ← dropStale
  return ⟨(← getTree).generatedCount, created, removed, kind⟩

/-- The end of a pass, when the value of the term is known. -/
def finish (options : Options) (v : Operand) : PassM Report := do
  let target ← output options.outputName (outputKindFor options.dialect v.kind)
  assign target v
  conclude v.kind

theorem synthesis_eq (unknowns : List String) (term : Term) (options : Options) :
    synthesis unknowns term options = (do
      let inputs ← openInputs unknowns options
      let value ← evaluate options.constantNodes inputs term
      finish options value.toOperand) := by
  unfold openInputs
  simp only [bind_assoc, pure_bind]
  rfl

def Kept (p : Pass) (id : NodeId) : Prop := id = .groupInput ∨ id ∈ p.used

theorem kept_of_settled (hp : p.Sound) (h : p.Settled id) : p.Kept id :=
  (settled_used hp h).imp_right And.left

theorem node?_of_kept (hp : p.Sound) (h : p.Kept id) : ∃ n, p.tree.node? id = some n := by
  rcases h with rfl | hu
  · obtain ⟨n, hn, -⟩ := hp.grouped.input
    exact ⟨n, hn⟩
  · obtain ⟨n, hn, -⟩ := hp.used id hu
    exact ⟨n, hn⟩

theorem not_kept_groupOutput (hp : p.Sound) : ¬p.Kept .groupOutput := by
  rintro (h | h)
  · exact absurd h Tree.groupOutput_ne_groupInput
  · obtain ⟨n, hn, hi, -⟩ := hp.used _ h
    obtain ⟨m, hm, -, hname⟩ := hp.grouped.output
    rw [hn] at hm
    cases hm
    rw [(hp.found _ _ hi).1] at hname
    cases hname

structure Finished (options : Options) (v : Operand) (p : Pass) (t : Tree) : Prop where
  sane : t.Sane
  grouped : t.Grouped
  editor : t.editor = p.tree.editor
  active : t.active = p.tree.active
  inputs : t.socketsOn .input = p.tree.socketsOn .input
  outline : t.outline =
    (p.tree.outline.filter (·.id ∉ stale p)).map (Outline.without (stale p))
  sink : ∀ n, p.tree.node? .groupOutput = some n → ∃ n', t.node? .groupOutput = some n' ∧
    n'.outputs = n.outputs
  keeps : Tree.Keeps p.Kept p.tree t
  socket : ∃ s, t.boundaryNamed? .output options.outputName = some s ∧
    t.editor.boundaryType? (outputKindFor options.dialect v.kind) = some s.type ∧ t.Assigned s v
  position : ∀ a n g, t.active = some a → t.node? a = some n → t.node? .groupOutput = some g →
    g.position = n.nextPosition 70 (-120)

theorem stale_eq : stale p =
    (p.tree.nodes.filter fun n => Tag.isTag n.name && !p.used.contains n.id).map (·.id) := rfl

theorem stale_eq_outline : stale p =
    (p.tree.outline.filter fun o => Tag.isTag o.name && !p.used.contains o.id).map (·.id) := by
  rw [stale_eq, Tree.outline, List.filter_map, List.map_map]
  rfl

theorem mem_stale : id ∈ stale p ↔
    ∃ o ∈ p.tree.outline, o.id = id ∧ Tag.isTag o.name = true ∧ id ∉ p.used := by
  rw [stale_eq_outline, List.mem_map]
  constructor
  · rintro ⟨o, ho, rfl⟩
    obtain ⟨ho, htag⟩ := List.mem_filter.mp ho
    exact ⟨o, ho, rfl, by simpa using htag⟩
  · rintro ⟨o, ho, rfl, htag, hu⟩
    exact ⟨o, List.mem_filter.mpr ⟨ho, by simpa using ⟨htag, hu⟩⟩, rfl⟩

namespace Finished

variable {options : Options} {v : Operand} {t : Tree}

theorem origin (h : Finished options v p t) {n : Node} (hn : n ∈ t.nodes) :
    ∃ m ∈ p.tree.nodes, m.id = n.id ∧ m.name = n.name ∧ n.id ∉ stale p := by
  have hmem := Tree.mem_outline.mpr ⟨n, hn, rfl⟩
  rw [h.outline] at hmem
  obtain ⟨o, ho, heq⟩ := List.mem_map.mp hmem
  obtain ⟨ho, hout⟩ := List.mem_filter.mp ho
  obtain ⟨m, hm, rfl⟩ := Tree.mem_outline.mp ho
  have hid : m.id = n.id := congrArg Outline.id heq
  exact ⟨m, hm, hid, congrArg Outline.name heq, hid ▸ of_decide_eq_true hout⟩

theorem tagged (h : Finished options v p t) :
    ∀ n ∈ t.nodes, Tag.isTag n.name = true → n.id ∈ p.used := by
  intro n hn htag
  obtain ⟨m, hm, hid, hname, hout⟩ := h.origin hn
  by_contra hu
  rw [← hname] at htag
  exact hout (mem_stale.mpr ⟨m.outline, Tree.mem_outline.mpr ⟨m, hm, rfl⟩, hid, htag, hu⟩)

end Finished

theorem not_group_of_stale (hg : p.tree.Grouped) (hd : (p.tree.nodes.map (·.id)).Nodup)
    (h : id ∈ stale p) : id.isGroup = false := by
  rw [stale_eq] at h
  obtain ⟨n, hn, rfl⟩ := List.mem_map.mp h
  obtain ⟨hn, htag⟩ := List.mem_filter.mp hn
  have htag : Tag.isTag n.name = true := by
    rw [Bool.and_eq_true] at htag
    exact htag.1
  exact hg.not_group (Tree.node?_of_mem hd hn) htag

theorem not_stale_of_kept (hp : p.Sound) (h : p.Kept id) : id ∉ stale p := by
  intro hid
  rcases h with rfl | hu
  · cases not_group_of_stale hp.grouped hp.sane.nodes hid
  · obtain ⟨-, -, -, -, hout⟩ := mem_stale.mp hid
    exact hout hu

/-- A value that is ready comes from a node that is kept. -/
theorem kept_of_source {r : SocketRef} (hp : p.Sound) (hv : p.Ready v) (ha : t.Assigned s v)
    (hr : t.sourceOf? s.id = some r) : p.Kept r.node := by
  cases v with
  | handle h =>
    have hsource := ha.2
    rw [hr] at hsource
    cases hsource
    exact kept_of_settled hp hv
  | literal l =>
    rw [Tree.sourceOf?, ha.1] at hr
    cases hr

structure Concludes (options : Options) (v : Operand) (p : Pass) (r : Report) (p' : Pass) :
    Prop where
  finished : Finished options v p p'.tree
  groups : p'.groups = p.groups
  nodeCount : r.nodeCount = p'.tree.generatedCount
  created : r.created = p.created
  removed : r.removed = (stale p).length
  resultKind : r.resultKind = v.kind

/-- The last steps always succeed. -/
theorem conclude_spec (counts : HandleCounts)
    (hp : p.Sound) (hv : p.Ready v) (ho : Tree.Outward p.tree t)
    (hsocket : ∃ s, t.boundaryNamed? .output options.outputName = some s ∧
      t.editor.boundaryType? (outputKindFor options.dialect v.kind) = some s.type ∧
      t.Assigned s v) :
    ∃ r p', conclude v.kind { p with tree := t, counts } = (.ok r, p') ∧
      Concludes options v p r p' := by
  obtain ⟨a, ha, hkept⟩ := hp.active
  obtain ⟨k, hk⟩ := node?_of_kept hp hkept
  have hkeeps := ho.keeps p.Kept (not_kept_groupOutput hp)
  obtain ⟨anchor, hanchor, -⟩ := hkeeps.node? hkept hk
  let p₁ : Pass := { p with tree := t, counts }
  let p₂ : Pass := { p₁ with tree := t.modifyNode .groupOutput (following anchor) }
  have hsettle : settleOutput p₁ = (.ok (), p₂) :=
    settleOutput_run (p := p₁) (by
      show t.node? (t.active.getD .groupInput) = _
      rw [ho.active, ha]
      exact hanchor)
  have ho₂ : Tree.Outward t p₂.tree := .repositioned ho.sane ho.grouped _
  have hprunes := Tree.prunes_foldl ho₂.sane fun id hid =>
    not_group_of_stale ho₂.grouped ho₂.sane.nodes hid
  have hstale : stale p₂ = stale p := by
    rw [stale_eq_outline, (ho.trans ho₂).outline, stale_eq_outline]
  have not_kept : ∀ id ∈ stale p₂, ¬p.Kept id := fun id hid hk =>
    not_stale_of_kept hp hk (hstale ▸ hid)
  let T := (stale p₂).foldl Tree.removeNode p₂.tree
  refine ⟨⟨T.generatedCount, p.created, (stale p₂).length, v.kind⟩, { p₂ with tree := T }, ?_,
    ?_, rfl, rfl, rfl, congrArg List.length hstale, rfl⟩
  · unfold conclude
    rw [bind_of_ok hsettle]
    rfl
  · have hactive : T.active = some a :=
      hprunes.active a ((ho₂.active.trans ho.active).trans ha) fun h => not_kept a h hkept
    have hkeepsT := (hkeeps.trans (ho₂.keeps p.Kept (not_kept_groupOutput hp)) fun _ h => h).trans
      (hprunes.keeps p.Kept not_kept) fun _ h => h
    -- the group output is kept by the removal as well
    have hkeepsOut : Tree.Keeps (fun id => id = .groupOutput ∨ p.Kept id) p₂.tree T := by
      refine hprunes.keeps _ fun id hid => ?_
      rintro (rfl | hk)
      · have := not_group_of_stale ho₂.grouped ho₂.sane.nodes hid
        cases this
      · exact not_kept id hid hk
    exact {
      sane := hprunes.sane
      grouped := ho₂.grouped.keeps hkeepsOut (.inr (.inl rfl)) (.inl rfl) hprunes.boundary
      editor := (hprunes.editor.trans ho₂.editor).trans ho.editor
      active := hactive.trans ha.symm
      inputs := by
        rw [← ho.inputs, ← ho₂.inputs]
        unfold Tree.socketsOn
        rw [hprunes.boundary]
      outline := by rw [hprunes.outline, (ho.trans ho₂).outline, hstale]
      sink := by
        intro n hn
        obtain ⟨n', hn', hout⟩ := (ho.trans ho₂).sink n hn
        obtain ⟨n'', hn'', horphan⟩ := hkeepsOut.node? (.inl rfl) hn'
        exact ⟨n'', hn'', (show n''.orphan.outputs = n'.orphan.outputs by rw [horphan]).trans hout⟩
      keeps := hkeepsT
      socket := by
        obtain ⟨s, hb, htype, hassigned⟩ := hsocket
        refine ⟨s, ?_, ?_, hassigned.congr ?_⟩
        · rw [← hb]
          unfold Tree.boundaryNamed?
          rw [hprunes.boundary]
          rfl
        · rw [hprunes.editor]
          exact htype
        · obtain ⟨n, hn, hmem⟩ : p₂.tree.HasInput ⟨.groupOutput, s.id⟩ :=
            Tree.hasInput_of_mem ho₂.grouped (Tree.mem_of_boundaryNamed? (t := t) hb)
              (Tree.of_boundaryNamed? hb).1
          refine hkeepsOut.feeds .groupOutput n s.id (.inl rfl) hn hmem fun r hr => .inr ?_
          exact kept_of_source hp hv hassigned hr
      position := by
        intro b n g hb hn hg
        rw [hactive] at hb
        cases hb
        have hne : a ≠ .groupOutput := fun h => not_kept_groupOutput hp (h ▸ hkept)
        have hnode₂ : ∀ x, p₂.tree.node? x =
            (t.node? x).map fun n => if x = .groupOutput then following anchor n else n :=
          fun x => Tree.node?_modifyNode fun _ => rfl
        obtain ⟨g₀, hg₀, -⟩ := ho.grouped.output
        obtain ⟨n', hn', horphan⟩ := hkeepsOut.node? (.inr hkept) (n := anchor) (by
          rw [hnode₂, hanchor]
          simp [hne])
        obtain ⟨g', hg', horphan'⟩ := hkeepsOut.node? (.inl rfl) (n := following anchor g₀) (by
          rw [hnode₂, hg₀]
          simp)
        rw [hn] at hn'
        cases hn'
        rw [hg] at hg'
        cases hg'
        have hposition : g.orphan.position = anchor.orphan.nextPosition 70 (-120) := by
          rw [horphan']
          rfl
        rw [← horphan] at hposition
        exact hposition }

/-- The end of a pass succeeds once the value is assigned. -/
theorem finish_of_assign {u : Unit} {p₂ : Pass}
    (hp : p.Sound) (hv : p.Ready v) (hb : t.boundaryNamed? .output options.outputName = some s)
    (htype : p.tree.editor.boundaryType? (outputKindFor options.dialect v.kind) = some s.type)
    (hout : Tree.Outward p.tree t)
    (hrun : output options.outputName (outputKindFor options.dialect v.kind) p =
      (.ok (p.outputHandle s.id options.outputName),
        { p with tree := t, counts := p.counts.bump .output }))
    (hassign : assign (p.outputHandle s.id options.outputName) v
      { p with tree := t, counts := p.counts.bump .output } = (.ok u, p₂)) :
    ∃ r p', finish options v p = (.ok r, p') ∧ Concludes options v p r p' := by
  obtain ⟨s₂, t₂, rfl, hout₂, hb₂, hs₂, hassigned⟩ := assign_spec hout.sane hout.grouped hb
    ⟨rfl, rfl⟩ (by
      rintro l rfl
      obtain ⟨x, rfl⟩ := hv
      exact ⟨hasDefault_of_scalar htype, x, rfl⟩) hassign
  obtain ⟨r, p', hconclude, hconcludes⟩ := conclude_spec (p.counts.bump .output) hp hv
    (hout.trans hout₂) ⟨s₂, hb₂, by rw [(hout.trans hout₂).editor, hs₂]; exact htype, hassigned⟩
  refine ⟨r, p', ?_, hconcludes⟩
  unfold finish
  rw [bind_of_ok hrun, bind_of_ok hassign, hconclude]

theorem finish_spec {r : Report} (hp : p.Sound) (hv : p.Ready v)
    (h : finish options v p = (.ok r, p')) : Concludes options v p r p' := by
  obtain ⟨target, p₁, houtput, hrest⟩ := bind_eq_ok.mp h
  obtain ⟨u, p₂, hassign, -⟩ := bind_eq_ok.mp hrest
  have hspec := output_spec hp.sane hp.grouped options.outputName
    (outputKindFor options.dialect v.kind)
  cases htype : p.tree.editor.boundaryType? (outputKindFor options.dialect v.kind) with
  | none =>
    rw [htype] at hspec
    obtain ⟨fault, hrun, -⟩ := hspec
    rw [hrun] at houtput
    cases houtput
  | some type =>
    rw [htype] at hspec
    obtain ⟨s, t, hb, rfl, hout, hrun⟩ := hspec
    rw [hrun] at houtput
    cases houtput
    obtain ⟨r', p'', hrun', hconcludes⟩ := finish_of_assign hp hv hb htype hout hrun hassign
    rw [hrun'] at h
    cases h
    exact hconcludes

end FormulaGraph.Pass
