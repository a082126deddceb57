import FormulaGraph.Proofs.Pass.Drawing

/-!
Drawing the node of a call under a new tag succeeds, and the handle on it stands
for the call; so with splitting a vector and placing a number.
-/

namespace FormulaGraph

open Run Numeric

variable {spec : SocketSpec} {i : Nat}

namespace Tree

variable {t t' : Tree} {id : NodeId} {n n' : Node} {shape : Shape} (h : t.Follows n shape)
include h

theorem Follows.wires (hs : t.Sane) (hn : t.node? id = some n)
    (hw : Wires (· ∈ shape.slots) id t t') (hn' : t'.node? id = some n') : t'.Follows n' shape := by
  obtain ⟨m, hm, hr⟩ := hw.rewired n hn
  rw [hn'] at hm
  cases hm
  have hshell := hr.shell
  refine ⟨?_, ?_, ?_, ?_, ?_⟩
  · rw [hshell]
    exact h.type
  · rw [hshell]
    exact h.properties
  · rw [← h.inputs]
    have := congrArg (List.map (·.type)) hr.sockets
    simpa [Function.comp_def, Socket.bare] using this
  · rw [hshell]
    exact h.outputs
  · intro i s spec hi hspec hslot
    rw [hr.others i hslot] at hi
    obtain ⟨hdefault, hfree⟩ := h.rest i s spec hi hspec hslot
    exact ⟨hdefault, (hw.fed_other hs hn hi hslot).trans hfree⟩

theorem Follows.input_spec {s : Socket} (hi : n.inputs[i]? = some s) :
    ∃ spec, shape.type.inputs[i]? = some spec ∧ spec.type = s.type := by
  have := congrArg (·[i]?) h.inputs
  simp only [List.getElem?_map, hi, Option.map_some] at this
  obtain ⟨spec, hspec, htype⟩ := Option.map_eq_some_iff.mp this.symm
  exact ⟨spec, hspec, htype⟩

theorem Follows.input_of_spec (hi : shape.type.inputs[i]? = some spec) :
    ∃ s, n.inputs[i]? = some s ∧ s.type = spec.type := by
  have := congrArg (·[i]?) h.inputs
  simp only [List.getElem?_map, hi, Option.map_some] at this
  obtain ⟨s, hs, htype⟩ := Option.map_eq_some_iff.mp this
  exact ⟨s, hs, htype⟩

theorem Follows.output_of_spec (hi : shape.type.outputs[i]? = some spec) :
    ∃ s, n.outputs[i]? = some s ∧ s.type = spec.type := by
  have := congrArg (·[i]?) h.outputs
  simp only [List.getElem?_map, hi, Option.map_some] at this
  obtain ⟨s, hs, htype⟩ := Option.map_eq_some_iff.mp this
  exact ⟨s, hs, htype⟩

end Tree

namespace Pass

variable {roster : List Handle} {p : Pass} {id : NodeId} {n : Node} {o : Operand} {x : Lowered}

theorem reads_of_fed {input : Socket} (h : Means roster p o x) (hf : p.tree.Fed input o) :
    p.tree.Reads (.input input) (x.feeding input.type) := by
  cases h with
  | carried known kind_eq carries type_eq reads => exact .fed hf.2 type_eq reads
  | @number y =>
    obtain ⟨hfree, -, hdefault⟩ := hf
    have : Lowered.feeding (.number y) input.type = .stored input.default := by
      rw [← hdefault]
      rfl
    rw [this]
    refine .stored ?_
    rw [Tree.sourceOf?, hfree]
    rfl

def heldAt (b : Blueprint Lowered) (i : Nat) (spec : SocketSpec) : Meaning :=
  match b.inputs.lookup i with
  | some x => x.feeding spec.type
  | none => .stored spec.default

theorem reads_input {b : Blueprint (Operand × Lowered)} (hn : p.tree.node? id = some n)
    (hf : p.tree.Follows n b.shape) (hfed : p.tree.FedAll id (b.map Prod.fst).inputs)
    (hm : ∀ e ∈ b.inputs, Means roster p e.2.1 e.2.2) {s : Socket} (hi : n.inputs[i]? = some s)
    (hspec : b.type.inputs[i]? = some spec) (htype : spec.type = s.type) :
    p.tree.Reads (.input s) (heldAt (b.map Prod.snd) i spec) := by
  unfold heldAt
  rw [show (b.map Prod.snd).inputs.lookup i = (b.inputs.lookup i).map Prod.snd from
    Blueprint.lookup_map_snd Prod.snd b.inputs i]
  cases hl : b.inputs.lookup i with
  | some z =>
    have hmem : (i, z) ∈ b.inputs := by
      obtain ⟨l₁, l₂, heq, -⟩ := List.lookup_eq_some_iff.mp hl
      rw [heq]
      simp
    obtain ⟨n', s', hn', hs', hz⟩ := hfed i z.1 (List.mem_map.mpr ⟨_, hmem, rfl⟩)
    rw [hn] at hn'
    cases hn'
    rw [hi] at hs'
    cases hs'
    have := reads_of_fed (hm _ hmem) hz
    rwa [← htype] at this
  | none =>
    have hslot : i ∉ b.shape.slots := by
      intro hmem
      obtain ⟨e, he, rfl⟩ := List.mem_map.mp hmem
      have := List.lookup_eq_none_iff.mp hl e he
      simp at this
    obtain ⟨hdefault, hfree⟩ := hf.rest i s spec hi hspec hslot
    have : p.tree.Reads (.input s) (.stored s.default) := by
      refine .stored ?_
      rw [Tree.sourceOf?, hfree]
      rfl
    rwa [hdefault] at this

theorem reads_output {b : Blueprint (Operand × Lowered)} (hb : b.Proper)
    (hn : p.tree.node? id = some n) (hinner : id ≠ .groupInput)
    (hf : p.tree.Follows n b.shape) (hfed : p.tree.FedAll id (b.map Prod.fst).inputs)
    (hm : ∀ e ∈ b.inputs, Means roster p e.2.1 e.2.2) {out : Socket}
    (ho : n.outputs[b.output]? = some out) :
    p.tree.Reads (.output ⟨id, out.id⟩) (b.map Prod.snd).meaning := by
  let given (i : Nat) : Meaning :=
    ((b.type.inputs[i]?).map (heldAt (b.map Prod.snd) i)).getD (.stored none)
  have htype : n.type = b.type := hf.type
  have hreads : p.tree.Reads (.output ⟨id, out.id⟩)
      (.operation n.type n.properties b.output (n.inputs.mapIdx fun i _ => given i)) := by
    refine .operation hn hinner (by rw [htype]; exact hb.type) ho rfl fun i s hi => ?_
    obtain ⟨spec, hspec, hst⟩ := hf.input_spec hi
    have hgiven : given i = heldAt (b.map Prod.snd) i spec := by
      show ((b.type.inputs[i]?).map _).getD _ = _
      rw [show b.type.inputs[i]? = some spec from hspec]
      rfl
    rw [hgiven]
    exact reads_input hn hf hfed hm hi hspec hst
  have hinputs : (n.inputs.mapIdx fun i _ => given i) =
      b.type.inputs.mapIdx (heldAt (b.map Prod.snd)) := by
    apply List.ext_getElem?
    intro i
    rw [List.getElem?_mapIdx, List.getElem?_mapIdx]
    cases hspec : b.type.inputs[i]? with
    | some spec =>
      obtain ⟨s, hs, -⟩ := hf.input_of_spec hspec
      rw [hs]
      simp [given, hspec]
    | none =>
      cases hi : n.inputs[i]? with
      | none => rfl
      | some s =>
        obtain ⟨spec, hspec', -⟩ := hf.input_spec hi
        cases hspec.symm.trans hspec'
  rw [hinputs, htype, hf.properties] at hreads
  exact hreads

variable {p' : Pass} {tag : String} {f : Function} {zs : List (Operand × Lowered)}
  {b : Blueprint (Operand × Lowered)}

theorem isVectorMark_numbered (kind : Kind) (number : Nat) :
    Tag.isVectorMark (numbered kind.letter number) = (kind == .vector) := by
  rw [Tag.isVectorMark, toList_numbered]
  cases kind <;> rfl

/-- The markers in a tag tell which arguments are vectors. -/
theorem map_isVectorMark (h : ∀ z ∈ zs, Means roster p z.1 z.2) (k : Nat) :
    (markers k (zs.map Prod.fst)).1.map Tag.isVectorMark = zs.map (·.2.isVector) := by
  induction zs generalizing k with
  | nil => rfl
  | cons z zs ih =>
    obtain ⟨o, x⟩ := z
    have hz := h _ List.mem_cons_self
    have hzs : ∀ z ∈ zs, Means roster p z.1 z.2 := fun z hz => h z (List.mem_cons_of_mem _ hz)
    cases hz with
    | @carried g kind type m known kind_eq =>
      refine List.cons_eq_cons.mpr ⟨?_, ih hzs k⟩
      rw [Handle.marker_eq, isVectorMark_numbered, kind_eq]
      rfl
    | number =>
      refine List.cons_eq_cons.mpr ⟨?_, ih hzs (k + 1)⟩
      show Tag.isVectorMark (numbered 'p' k) = false
      rw [Tag.isVectorMark, toList_numbered]
      rfl

/-- A call on arguments of a pass, under a tag that has no result. -/
structure Asked (roster : List Handle) (p : Pass) (tag : String) (f : Function)
    (zs : List (Operand × Lowered)) : Prop where
  name : ∃ k, tag = Tag.operation f.name (markers k (zs.map Prod.fst)).1 ∧
    (markers k (zs.map Prod.fst)).2 ≤ p.literals
  isNew : p.results.lookup tag = none
  args : ∀ z ∈ zs, Means roster p z.1 z.2
  numeric : ∀ z ∈ zs, z.2.kind.isNumeric = true

theorem Asked.isCall (h : Asked roster p tag f zs) : Tag.IsCall tag := by
  obtain ⟨k, htag, -⟩ := h.name
  exact ⟨f, _, htag⟩

theorem Asked.shapes (h : Asked roster p tag f zs)
    (hb : Blueprint.native (·.2.isVector) f zs = some b) : Tag.Shapes tag b.shape := by
  obtain ⟨k, htag, -⟩ := h.name
  rw [← Blueprint.shape_map (fun z => z.2.isVector) b]
  refine .call htag plain_markers ?_
  rw [map_isVectorMark h.args k, Blueprint.native_map]
  exact congrArg (Option.map _) hb

/-- What feeds the inputs of a node that was wired is settled. -/
theorem settled_of_fed (hp : p.Orderly roster) (hn : p'.tree.node? id = some n)
    (hf : p'.tree.Follows n b.shape) (hfed : p'.tree.FedAll id (b.map Prod.fst).inputs)
    (hm : ∀ e ∈ b.inputs, Means roster p e.2.1 e.2.2) {x : SocketId} {r : SocketRef}
    (hx : x ∈ n.inputIds) (hr : p'.tree.sourceOf? x = some r) : p.Settled r.node := by
  obtain ⟨s, hs, rfl⟩ := List.mem_map.mp hx
  obtain ⟨i, hi⟩ := List.mem_iff_getElem?.mp hs
  by_cases hslot : i ∈ b.shape.slots
  · obtain ⟨e, he, rfl⟩ := List.mem_map.mp hslot
    obtain ⟨n', s', hn', hs', hz⟩ := hfed e.1 e.2.1 (List.mem_map.mpr ⟨e, he, rfl⟩)
    rw [hn] at hn'
    cases hn'
    rw [hi] at hs'
    cases hs'
    obtain ⟨slot, o, y⟩ := e
    cases hm _ he with
    | carried known =>
      cases hr.symm.trans hz.2
      exact known.settled hp
    | number =>
      rw [Tree.sourceOf?, hz.1] at hr
      cases hr
  · obtain ⟨spec, hspec, -⟩ := hf.input_spec hi
    rw [Tree.sourceOf?, (hf.rest i s spec hi hspec hslot).2] at hr
    cases hr

/-- The node of a tag, got for a shape and not yet wired. -/
theorem open_tidy {shape : Shape} (hp : p.Orderly roster) (htag : Tag.isTag tag = true)
    (hnew : p.results.lookup tag = none) (hshape : Tag.Shapes tag shape)
    (hd : (shape.settings.map Prod.fst).Nodup) (htype : shape.type ≠ .frame)
    (hoffers : p.tree.editor.offers shape.type = true) :
    ∃ id p₁ n, nodeFor tag shape.type shape.settings p = (.ok id, p₁) ∧
      Opened tag shape.type shape.settings p id p₁ ∧ Tree.Keeps (· ≠ id) p.tree p₁.tree ∧
      (∀ q : Pass, p₁.tree.Local id q.tree → Grows p q → q.used = id :: p.used →
        q.created = p₁.created → q.groups = p₁.groups → Extends p q) ∧
      p₁.tree.node? id = some n ∧ p₁.tree.Follows n shape ∧ id ≠ .groupInput ∧ ¬p.Settled id ∧
      p₁.tree.Closed p.Settled ∧ Tree.Keeps p.Settled p.tree p₁.tree := by
  obtain ⟨id, p₁, n, h, hkeeps, hfetches, hn, hname, hf⟩ :=
    nodeFor_tidy hp.sound hp.tidy htag hshape hd hoffers
  have ho := hp.sound.opened htag hd h
  have hfar : ¬p.Settled id := fun hc =>
    ho.own (apart_of_settled hp.sound htag (not_mem_keys hnew) hc)
  have hgroup := ho.grouped.not_group hn (by rw [hname]; exact htag)
  have hsettled : Tree.Keeps p.Settled p.tree p₁.tree :=
    hkeeps.mono fun x hx hc => hfar (hc ▸ hx)
  refine ⟨id, p₁, n, h, ho, hkeeps, fun q hlocal hgrows hused hcreated hgroups => ?_, hn, hf,
    (Tree.ne_of_not_group hgroup).1, hfar, hp.closed.keeps hsettled, hsettled⟩
  exact .of_local hgrows hfetches
    (hkeeps.trans (hlocal.keeps ho.sane fun hne => hne rfl) fun _ hx => hx) hlocal ho.sane hn
    (by rw [hname]; exact htag) (by rw [hf.type]; exact htype) hused hcreated hgroups

theorem wireAll_of_shape {q : Pass} (hp : p.Orderly roster) (hs : q.tree.Sane)
    (hc : q.tree.Closed p.Settled) (hk : Tree.Keeps p.Settled p.tree q.tree) (hid : ¬p.Settled id)
    (hn : q.tree.node? id = some n) (hf : q.tree.Follows n b.shape) (hb : b.Proper)
    (hm : ∀ e ∈ b.inputs, Means roster p e.2.1 e.2.2)
    (hnum : ∀ e ∈ b.inputs, e.2.2.kind.isNumeric = true) :
    ∃ q', wireAll id (b.map Prod.fst).inputs q = (.ok (), q') := by
  refine wireAll_total hs hc hid ?_ ?_
  · intro e he
    obtain ⟨e', he', rfl⟩ := List.mem_map.mp he
    obtain ⟨spec, hspec, htype⟩ := hb.inputs e' he'
    obtain ⟨s, hs, hst⟩ := hf.input_of_spec hspec
    exact ⟨n, s, hn, hs, by rw [hst]; exact htype⟩
  · intro e he
    obtain ⟨e', he', rfl⟩ := List.mem_map.mp he
    exact ((hm e' he').linkable hp (hnum e' he')).keeps hk

/-- A handle on an output of a node that was drawn by a blueprint. -/
theorem means_output (hs : p.tree.Sane) (hb : b.Proper) (hn : p.tree.node? id = some n)
    (hinner : id ≠ .groupInput) (hf : p.tree.Follows n b.shape)
    (hfed : p.tree.FedAll id (b.map Prod.fst).inputs)
    (hm : ∀ e ∈ b.inputs, Means roster p e.2.1 e.2.2) {out : Socket}
    (ho : n.outputs[b.output]? = some out) {g : Handle} (hg : Known roster p g)
    (hkind : g.kind = b.kind) (hsocket : g.socket = ⟨id, out.id⟩) :
    Means roster p (.handle g) (b.map Prod.snd).lower := by
  obtain ⟨spec, hspec, htype⟩ := hb.output
  obtain ⟨out', hout', heq⟩ := hf.output_of_spec hspec
  rw [ho] at hout'
  cases hout'
  have hout : (b.map Prod.snd).outputType = out.type := by
    show ((b.type.outputs[b.output]?).map (·.type)).getD .float = _
    rw [hspec, heq]
    rfl
  refine .carried hg hkind (Kind.carries_of_numeric hb.kind ?_) ?_ ?_
  · rw [hout, heq]
    exact htype
  · rw [hsocket, hout]
    exact hs.outputType?_eq hn (List.mem_of_getElem? ho)
  · rw [hsocket]
    exact reads_output hb hn hinner hf hfed hm ho

section Draw

variable {α : Type} {Q : α → Pass → Prop}

theorem Sketch.Drawn.known {s : Sketch α} {p₁ q : Pass} {a : α}
    (hd : s.Drawn p id p₁ q n a p') : ∀ g ∈ s.list a, Known roster p' g := fun _ hg =>
  .inr ⟨_, by rw [hd.closes.results]; exact List.mem_cons_self, hg⟩

/-- The node of a new tag is drawn by its shape: it can be made up, and takes its
inputs from what is settled. Then the handles on it are left to be explained. -/
theorem draw_gives {s : Sketch α} {shape : Shape} (hp : p.Orderly roster) (hs : s.Valid)
    (hnew : p.results.lookup s.tag = none) (hshape : Tag.Shapes s.tag shape)
    (htype : shape.type = s.type) (hsettings : shape.settings = s.settings)
    (hframe : s.type ≠ .frame) (hoffers : p.tree.editor.offers s.type = true)
    (houts : ∀ e ∈ s.taps, ∃ spec, shape.type.outputs[e.1]? = some spec)
    (hmake : ∀ {id p₁ n₁}, Opened s.tag s.type s.settings p id p₁ → p₁.tree.node? id = some n₁ →
      p₁.tree.Follows n₁ shape → ¬p.Settled id → p₁.tree.Closed p.Settled →
      Tree.Keeps p.Settled p.tree p₁.tree → ∃ q n, s.make id p₁ = (.ok (), q) ∧
        q.tree.node? id = some n ∧ q.tree.Follows n shape ∧
        ∀ x ∈ n.inputIds, ∀ r, q.tree.sourceOf? x = some r → p.Settled r.node)
    (hgive : ∀ {id p₁ q n a p'}, s.Drawn p id p₁ q n a p' → p'.tree.Follows n shape →
      id ≠ .groupInput → Explained roster p' s.tag (s.list a) ∧ Q a p') :
    Gives roster s.draw p Q := by
  obtain ⟨id, p₁, n₁, h₁, ho, hkeeps, hextends, hn₁, hf₁, hinner, hfar, hclosed, hsettled⟩ :=
    open_tidy hp hs.isTag hnew hshape (hsettings ▸ hs.settings) (htype ▸ hframe) (htype ▸ hoffers)
  rw [htype, hsettings] at h₁ ho
  obtain ⟨q, n, hq, hn, hf, hsources⟩ := hmake ho hn₁ hf₁ hfar hclosed hsettled
  obtain ⟨a, counts, -, hrun⟩ := hs.draw_of_outputs h₁ hq hn fun e he => by
    obtain ⟨spec, hspec⟩ := houts e he
    obtain ⟨out, hout, -⟩ := hf.output_of_spec hspec
    exact ⟨out, hout⟩
  obtain ⟨id', p₁', q', n', hd⟩ := hs.drawn hp.sound hnew hrun
  cases h₁.symm.trans hd.got
  cases hq.symm.trans hd.made
  have hnode := hd.node
  rw [hd.tree] at hnode
  cases hn.symm.trans hnode
  obtain ⟨hexplained, hgives⟩ := hgive hd (hd.tree ▸ hf) hinner
  have hlocal := hd.makesUp.isLocal
  refine ⟨a, _, hrun, hp.draws id { hd.closes with
    tagged := hs.isTag
    others := hkeeps.trans (hlocal.keeps ho.sane fun h => h rfl) fun _ h => h
    shaped := ?_
    sources := ?_
    on := hd.tapped.on
    fresh := hd.tapped.fresh
    apart := hd.tapped.apart
    explained := hexplained }, hextends _ hlocal hd.closes.grows hd.closes.used ?_ ?_, hgives⟩
  · intro m hm
    cases hd.node.symm.trans hm
    exact ⟨_, hshape, hf⟩
  · intro m x r hm hx hr
    cases hd.node.symm.trans hm
    exact hsources x hx r hr
  · show q.created = p₁.created
    rw [hd.makesUp.rest]
  · show q.groups = p₁.groups
    rw [hd.makesUp.rest]

/-- A node that is drawn by a blueprint. -/
theorem wired_gives {read : NodeId → PassM α} {list : α → List Handle} {taps : List (Nat × Kind)}
    (hp : p.Orderly roster) (hb : b.Proper)
    (hs : (Sketch.wired tag (b.map Prod.fst).plan read list taps).Valid)
    (hnew : p.results.lookup tag = none) (hshape : Tag.Shapes tag b.shape)
    (hoffers : p.tree.editor.offers b.type = true)
    (hargs : ∀ e ∈ b.inputs, Means roster p e.2.1 e.2.2)
    (hnum : ∀ e ∈ b.inputs, e.2.2.kind.isNumeric = true)
    (houts : ∀ e ∈ taps, ∃ spec, b.type.outputs[e.1]? = some spec)
    (hgive : ∀ {id n a p'}, Grows p p' → p'.literals = p.literals → p'.tree.Sane →
      p'.tree.node? id = some n → id ≠ .groupInput → p'.tree.Follows n b.shape →
      p'.tree.FedAll id (b.map Prod.fst).inputs → (∀ g ∈ list a, Known roster p' g) →
      Tapped id n p.counts taps (list a) p'.counts → Explained roster p' tag (list a) ∧ Q a p') :
    Gives roster (Sketch.wired tag (b.map Prod.fst).plan read list taps).draw p Q := by
  refine draw_gives hp hs hnew hshape rfl rfl hb.type_ne_frame hoffers houts ?_ ?_
  · intro id p₁ n₁ ho hn₁ hf₁ hfar hclosed hsettled
    obtain ⟨q, h⟩ := wireAll_of_shape (q := { p₁ with tree := p₁.tree.setActive (some id) }) hp
      (ho.sane.setActive _) hclosed ⟨hsettled.nodes, hsettled.feeds⟩ hfar hn₁
      (hf₁.congr rfl fun _ _ h => h) hb hargs hnum
    have hmake : wiring (b.map Prod.fst).plan.inputs id p₁ = (.ok (), q) := h
    obtain ⟨-, -, -, hfed, hw⟩ := wiring_spec ho (hb.map Prod.fst).slots hmake
    obtain ⟨n, hn, -⟩ := hw.rewired n₁ hn₁
    have hf : q.tree.Follows n b.shape := by
      rw [← Blueprint.shape_map Prod.fst] at hf₁ ⊢
      exact Tree.Follows.wires (t := p₁.tree.setActive (some id)) (hf₁.congr rfl fun _ _ h => h)
        (ho.sane.setActive _) hn₁ hw hn
    exact ⟨q, n, hmake, hn, hf, fun x hx r hr => settled_of_fed hp hn hf hfed hargs hx hr⟩
  · intro id p₁ q n a p' hd hf hinner
    exact hgive hd.closes.grows hd.closes.literals hd.closes.sound.sane hd.node hinner hf
      (hd.wires (hb.map Prod.fst).slots).2.2.1 hd.known hd.tapped

end Draw

/-- A call that one node computes is built by drawing the node. -/
theorem build_gives (hp : p.Orderly roster) (ha : Asked roster p tag f zs)
    (hb : Blueprint.native (·.2.isVector) f zs = some b)
    (hsuits : b.Suits p.tree.editor f (zs.map (·.2.isVector)))
    (happly : .apply p.tree.editor f (zs.map Prod.snd) = (b.map Prod.snd).lower) :
    Gives roster (build tag (b.map Prod.fst).plan) p fun h p' =>
      Means roster p' (.handle h) (.apply p.tree.editor f (zs.map Prod.snd)) := by
  have hproper := hsuits.proper
  have hmem := Blueprint.mem_of_native hb
  have hargs : ∀ e ∈ b.inputs, Means roster p e.2.1 e.2.2 := fun e he => ha.args _ (hmem e he)
  unfold Gives
  rw [build_of_new ha.isNew]
  refine wired_gives hp hproper
    (Sketch.valid_ofPlan ha.isCall ⟨hproper.settings, (hproper.map Prod.fst).slots⟩) ha.isNew
    (ha.shapes hb) hsuits.offered hargs (fun e he => ha.numeric _ (hmem e he)) ?_ ?_
  · obtain ⟨spec, hspec, -⟩ := hproper.output
    exact List.forall_mem_singleton.mpr ⟨spec, hspec⟩
  · intro id n g p' hgrows hliterals hsane hn hinner hf hfed hknown htapped
    obtain _ | ⟨hout, -⟩ := htapped
    have hmeans := means_output hsane hproper hn hinner hf hfed
      (fun e he => (hargs e he).grows hp hgrows) hout (hknown _ (List.mem_singleton_self _)) rfl rfl
    rw [← happly] at hmeans
    obtain ⟨k, htag, hle⟩ := ha.name
    refine ⟨.call htag (hliterals ▸ hle) (fun z hz => (ha.args z hz).grows hp hgrows) ?_, hmeans⟩
    rw [hgrows.editor]
    exact hmeans

variable {x : Double}

theorem proper_separate {α : Type} {axis : Nat} (h : axis < 3) (v : α) :
    (Blueprint.separate axis v).Proper where
  settings := by simp [Blueprint.separate]
  slots := by simp [Blueprint.separate]
  inputs := by
    simp [Blueprint.separate, NodeType.inputs, SocketSpec.vector, SocketType.isNumeric,
      SocketType.hasDefault]
  output := by
    obtain rfl | rfl | rfl : axis = 0 ∨ axis = 1 ∨ axis = 2 := by omega
    all_goals exact ⟨_, rfl, rfl⟩
  kind := rfl
  type := by simp [Blueprint.separate]

def MeansParts (roster : List Handle) (p : Pass) (x : Lowered) (parts : Handle × Handle × Handle) :
    Prop :=
  Means roster p (.handle parts.1) (Blueprint.separate 0 x).lower ∧
  Means roster p (.handle parts.2.1) (Blueprint.separate 1 x).lower ∧
  Means roster p (.handle parts.2.2) (Blueprint.separate 2 x).lower

theorem split_gives {v : Operand} {x : Lowered} {k : Nat} (hp : p.Orderly roster)
    (hv : Means roster p v x) (hx : x.kind.isNumeric = true)
    (htag : tag = Tag.operation "sepaxyz" (markers k [v]).1) (hle : (markers k [v]).2 ≤ p.literals)
    (hnew : p.results.lookup tag = none) :
    Gives roster (Sketch.split tag v).draw p fun parts p' => MeansParts roster p' x parts := by
  refine wired_gives (b := Blueprint.separate 0 (v, x)) hp (proper_separate (by omega) _)
    (Sketch.valid_split ⟨_, htag⟩) hnew (.separation htag) (by cases p.tree.editor <;> rfl)
    (List.forall_mem_singleton.mpr hv) (List.forall_mem_singleton.mpr hx) ?_ ?_
  · simp [partTaps, Blueprint.separate, NodeType.outputs]
  · rintro id n ⟨gx, gy, gz⟩ p' hgrows hliterals hsane hn hinner hf hfed hknown htapped
    obtain _ | ⟨hox, _ | ⟨hoy, _ | ⟨hoz, -⟩⟩⟩ := htapped
    have hv' := hv.grows hp hgrows
    have part : ∀ {axis : Nat} {out : Socket} {g : Handle}, axis < 3 →
        n.outputs[axis]? = some out → Known roster p' g → g.kind = .scalar →
        g.socket = ⟨id, out.id⟩ →
        Means roster p' (.handle g) (Blueprint.separate axis x).lower := by
      intro axis out g haxis hout hg hkind hsocket
      exact means_output (b := Blueprint.separate axis (v, x)) hsane (proper_separate haxis _) hn
        hinner hf hfed (List.forall_mem_singleton.mpr hv') hout hg hkind hsocket
    have hmeans : MeansParts roster p' x (_, _, _) :=
      ⟨part (by omega) hox (hknown _ (.head _)) rfl rfl,
        part (by omega) hoy (hknown _ (.tail _ (.head _))) rfl rfl,
        part (by omega) hoz (hknown _ (.tail _ (.tail _ (.head _)))) rfl rfl⟩
    refine ⟨.separation htag (hliterals ▸ hle) hv' fun axis h hh => ?_, hmeans⟩
    obtain ⟨hlt, -⟩ := List.getElem?_eq_some_iff.mp hh
    change axis < 3 at hlt
    obtain rfl | rfl | rfl : axis = 0 ∨ axis = 1 ∨ axis = 2 := by omega
    · cases hh
      exact hmeans.1
    · cases hh
      exact hmeans.2.1
    · cases hh
      exact hmeans.2.2

/-- A vector is split once; its components stand for what they say. -/
theorem separate_gives {v : Operand} {x : Lowered} (hp : p.Orderly roster)
    (hv : Means roster p v x) (hx : x.kind.isNumeric = true) :
    Gives roster (separate v) p fun parts p' => MeansParts roster p' x parts := by
  have hle := literals_le_markers p.literals [v]
  have hq := hp.withLiterals hle
  have hextends := Extends.withLiterals hle
  have hgrows := hextends.toGrows
  rcases lookup_separation hp.sound ⟨(markers p.literals [v]).1, rfl⟩ with
    hnew | ⟨gx, gy, gz, hr, hmem⟩
  · obtain ⟨parts, p', hrun, hp', hg, hm⟩ :=
      split_gives hq (hv.grows hp hgrows) hx rfl (Nat.le_refl _) hnew
    exact ⟨parts, p', by rw [separate_of_new hnew, hrun], hp', hextends.trans hg, hm⟩
  · have part : ∀ {axis : Nat} {g : Handle}, [gx, gy, gz][axis]? = some g → Means roster _
        (.handle g) (Blueprint.separate axis x).lower :=
      fun hg => (hp.means_of_separation hv hmem hg).grows hp hgrows
    exact ⟨_, _, separate_of_known hr, hq, hextends, part rfl, part rfl, part rfl⟩

theorem follows_numbering {t : Tree} {position : Point} (hf : t.Follows n ⟨.value, [], []⟩) :
    (t.modifyNode id (numbering x position)).Follows (numbering x position n)
      ⟨.value, [], []⟩ where
  type := hf.type
  properties := hf.properties
  inputs := hf.inputs
  outputs := by
    rw [← hf.outputs]
    apply map_modify_of_congr
    intro s
    rfl
  rest := hf.rest

theorem number_gives (hp : p.Orderly roster) (hx : x.Proper)
    (hnew : p.results.lookup (Tag.constantMark ++ x.text) = none) :
    Gives roster (Sketch.number x).draw p fun h p' =>
      Means roster p' (.handle h) (.carried .scalar .float (.constant x.toSingle)) := by
  refine draw_gives hp (Sketch.valid_number x) hnew (.constant rfl) rfl
    rfl (by simp [Sketch.number]) (by cases p.tree.editor <;> rfl)
    (List.forall_mem_singleton.mpr ⟨_, rfl⟩) ?_ ?_
  · intro id p₁ n₁ ho hn₁ hf₁ hfar hclosed hsettled
    refine ⟨_, _, rfl, node?_numbering hn₁ _, follows_numbering hf₁, fun y hy => ?_⟩
    obtain ⟨s, hs, -⟩ := List.mem_map.mp hy
    obtain ⟨i, hi⟩ := List.mem_iff_getElem?.mp hs
    obtain ⟨spec, hspec, -⟩ := hf₁.input_spec hi
    cases hspec
  · intro id p₁ q n g p' hd hf hinner
    obtain ⟨n₁, hn₁, -⟩ := hd.opened.node
    have hn := hd.node
    have hknown : Known roster p' g := hd.known g List.mem_cons_self
    obtain _ | ⟨hout, -⟩ := hd.tapped
    rename_i out
    obtain ⟨out', hout', htype⟩ := hf.output_of_spec (i := 0) rfl
    cases hout.symm.trans hout'
    have hdefault : out.default = some (.float x.toSingle) := by
      have hnum := hn
      rw [hd.tree] at hnum
      cases hd.made
      cases (node?_numbering hn₁ _).symm.trans hnum
      have : (n₁.outputs.modify 0 fun s => { s with default := some (.float x.toSingle) })[0]? =
          some out := hout
      rw [List.getElem?_modify] at this
      obtain ⟨s, -, rfl⟩ := Option.map_eq_some_iff.mp this
      rfl
    have hmeans : Means roster p' _ (.carried .scalar .float (.constant x.toSingle)) :=
      .carried hknown rfl rfl ((hd.closes.sound.sane.outputType?_eq hn
        (List.mem_of_getElem? hout)).trans (congrArg some htype))
        (.constant hn hinner hd.type hout rfl hdefault)
    exact ⟨.constant rfl hx hmeans, hmeans⟩

theorem constant_gives (hp : p.Orderly roster) (hx : x.Proper) :
    Gives roster (constant x) p fun h p' =>
      Means roster p' (.handle h) (.carried .scalar .float (.constant x.toSingle)) := by
  rcases lookup_results hp.sound (Tag.constantMark ++ x.text) with hnew | ⟨g, l, hr, hmem⟩
  · unfold Gives
    rw [constant_of_new hnew]
    exact number_gives hp hx hnew
  · exact ⟨g, p, constant_of_known hr, hp, .refl, hp.means_of_constant hx hmem⟩

end Pass

end FormulaGraph
