import FormulaGraph.Proofs.Pass.Framing

/-!
A pass over the tree that an equal pass has left finds every node in place. The
second pass is compared with the first one step by step, the end of the first
being known: a step that succeeded the first time gives the same result and
changes nothing but the active node, labels and positions of frames that it has
yet to come to, and frames that nodes are in.
-/

namespace FormulaGraph

open Run

variable {n : Node}

def Node.face (n : Node) : String × Point := (n.label, n.position)

theorem Node.orphan_of_core {m : Node} (hc : n.core = m.core) (hf : n.face = m.face) :
    n.orphan = m.orphan := by
  obtain ⟨hl, hp⟩ := Prod.mk.inj hf
  simp only [Node.core, Node.orphan, Node.mk.injEq] at hc ⊢
  simp_all

section Core

variable {n m : Node} (h : n.core = m.core)
include h

theorem Node.name_of_core : n.name = m.name := show n.core.name = m.core.name by rw [h]

theorem Node.type_of_core : n.type = m.type := show n.core.type = m.core.type by rw [h]

theorem Node.inputs_of_core : n.inputs = m.inputs := show n.core.inputs = m.core.inputs by rw [h]

theorem Node.outputs_of_core : n.outputs = m.outputs :=
  show n.core.outputs = m.core.outputs by rw [h]

theorem Node.Has.of_core {settings : List (String × String)} (hm : m.Has settings) :
    n.Has settings := by
  intro s hs
  rw [← hm s hs]
  exact show n.core.properties.get? _ = m.core.properties.get? _ by rw [h]

end Core

namespace Pass

variable {p p' q : Pass} {T : Tree} {tag : String} {id x : NodeId}
  {t t' : Tree} {handles : List Handle} {v : Operand}

/-- A pass that ends with a tree: what is settled is there, and the nodes in use
are found under their names. -/
structure Leads (p : Pass) (T : Tree) : Prop where
  sane : T.Sane
  keeps : Tree.Keeps p.Settled p.tree T
  found : ∀ id ∈ p.used, ∀ n, p.tree.node? id = some n →
    (tagIndex T).lookup n.name = some id ∧ ∃ n', T.node? id = some n' ∧ n'.core = n.core

theorem Leads.of_grows (hg : Grows p p') (h : Leads p' T) : Leads p T where
  sane := h.sane
  keeps := hg.keeps.trans h.keeps fun _ => hg.settled
  found := by
    intro id hid n hn
    obtain ⟨n', hn', hcore⟩ := hg.cores id hid n hn
    obtain ⟨hi, n'', hn'', hcore'⟩ := h.found id (hg.used hid) n' hn'
    refine ⟨?_, n'', hn'', hcore'.trans hcore⟩
    rwa [Node.name_of_core hcore] at hi

def Framed (p : Pass) (id : NodeId) : Prop :=
  id ∈ p.used ∧ ∃ n, p.tree.node? id = some n ∧ Tag.letter? n.name = some 'G'

/-- The second pass `q` stands where the first one, ending with `T`, stood at
`p`. -/
structure Echoes (T : Tree) (p q : Pass) : Prop where
  counts : q.counts = p.counts
  literals : q.literals = p.literals
  results : q.results = p.results
  used : q.used = p.used
  constants : q.constants = p.constants
  created : q.created = 0
  index : q.index = tagIndex T
  editor : q.tree.editor = p.tree.editor
  links : q.tree.links = T.links
  boundary : q.tree.boundary = T.boundary
  supply : q.tree.supply = T.supply
  active : q.tree.active = p.tree.active
  ids : q.tree.nodes.map (·.id) = T.nodes.map (·.id)
  cores : ∀ id, (q.tree.node? id).map Node.core = (T.node? id).map Node.core
  framed : ∀ id, p.Framed id → (q.tree.node? id).map Node.face = (p.tree.node? id).map Node.face
  unframed : ∀ id, ¬p.Framed id → (q.tree.node? id).map Node.face = (T.node? id).map Node.face

/-- A computation that succeeds again the second time, with the same result. -/
def Replays {α : Type} (m : PassM α) (p : Pass) (Q : α → Pass → Prop) : Prop :=
  ∀ a p', m p = (.ok a, p') → p'.Sound ∧ Grows p p' ∧ Q a p' ∧
    ∀ T q, Leads p' T → Echoes T p q → ∃ q', m q = (.ok a, q') ∧ Echoes T p' q'

namespace Replays

variable {α β : Type} {m : PassM α} {f : α → PassM β} {Q : α → Pass → Prop} {R : β → Pass → Prop}

theorem pure {a : α} (hp : p.Sound) (h : Q a p) : Replays (pure a : PassM α) p Q := by
  intro b p' hb
  cases hb
  exact ⟨hp, .refl, h, fun T q _ he => ⟨q, rfl, he⟩⟩

theorem throw {fault : Fault} : Replays (throw fault : PassM α) p Q := by
  intro b p' hb
  cases hb

theorem bind (hm : Replays m p Q)
    (hf : ∀ a p', m p = (.ok a, p') → p'.Sound → Grows p p' → Q a p' → Replays (f a) p' R) :
    Replays (m >>= f) p R := by
  intro b p'' h
  obtain ⟨a, p', h₁, h₂⟩ := bind_eq_ok.mp h
  obtain ⟨hp', hg, hq, hreplay⟩ := hm a p' h₁
  obtain ⟨hp'', hg', hr, hreplay'⟩ := hf a p' h₁ hp' hg hq b p'' h₂
  refine ⟨hp'', hg.trans hg', hr, fun T q hl he => ?_⟩
  obtain ⟨q', hq', he'⟩ := hreplay T q (hl.of_grows hg') he
  obtain ⟨q'', hq'', he''⟩ := hreplay' T q' hl he'
  exact ⟨q'', by rw [bind_of_ok hq', hq''], he''⟩

theorem of_draw {m' : PassM α} {Q' : α → Pass → Prop} (h : Replays m' p Q')
    (hm : ∀ q, q.results = p.results → m q = m' q) (hq : ∀ a p', Q' a p' → Q a p') :
    Replays m p Q := by
  intro a p' hrun
  rw [hm p rfl] at hrun
  obtain ⟨hp', hg, ha, hreplay⟩ := h a p' hrun
  refine ⟨hp', hg, hq a p' ha, fun T q hl he => ?_⟩
  rw [hm q he.results]
  exact hreplay T q hl he

end Replays

theorem not_framed_of_settled (hp : p.Sound) (h : p.Settled x) : ¬p.Framed x := by
  rintro ⟨hu, n, hn, hletter⟩
  obtain rfl | ⟨-, m, hm, hk⟩ := settled_used hp h
  · obtain ⟨m, hm, hi, -⟩ := hp.used _ hu
    obtain ⟨k, hk, -, hname⟩ := hp.grouped.input
    rw [hm] at hk
    cases hk
    rw [(hp.found _ _ hi).1] at hname
    cases hname
  · rw [hn] at hm
    cases hm
    obtain ⟨e, he, hname⟩ := List.mem_map.mp hk
    rw [← hname] at hletter
    exact (hp.entries e he).2.1 hletter

theorem face_of_bare? (h : t'.bare? x = t.bare? x) :
    (t'.node? x).map Node.face = (t.node? x).map Node.face := by
  have : (t'.bare? x).map Node.face = (t.bare? x).map Node.face := by rw [h]
  simp only [Tree.bare?, Option.map_map] at this
  exact this

theorem Echoes.node? (he : Echoes T p q) (hl : Leads p T) (hp : p.Sound) (hs : p.Settled x)
    (hn : p.tree.node? x = some n) :
    ∃ m, q.tree.node? x = some m ∧ m.orphan = n.orphan := by
  obtain ⟨n', hn', horphan⟩ := hl.keeps.node? hs hn
  have hcore := he.cores x
  rw [hn'] at hcore
  obtain ⟨m, hm, hmc⟩ := Option.map_eq_some_iff.mp hcore
  have hface := he.unframed x (not_framed_of_settled hp hs)
  rw [hm, hn'] at hface
  exact ⟨m, hm, (Node.orphan_of_core hmc (Option.some.inj hface)).trans horphan⟩

theorem Echoes.found (he : Echoes T p q) (hl : Leads p' T) (hu : id ∈ p'.used)
    (hn : p'.tree.node? id = some n) :
    ∃ m, q.tree.node? id = some m ∧ m.core = n.core ∧ q.index.lookup n.name = some id := by
  obtain ⟨hi, n', hn', hcore⟩ := hl.found id hu n hn
  have := he.cores id
  rw [hn'] at this
  obtain ⟨m, hm, hmc⟩ := Option.map_eq_some_iff.mp this
  exact ⟨m, hm, hmc.trans hcore, by rw [he.index]; exact hi⟩

theorem Echoes.nodup (he : Echoes T p q) (hl : Leads p' T) : (q.tree.nodes.map (·.id)).Nodup := by
  rw [he.ids]
  exact hl.sane.nodes

/-- A node of the right type and settings is used again as it is. -/
theorem nodeFor_again {type : NodeType} {settings : List (String × String)} {m : Node}
    (hd : (q.tree.nodes.map (·.id)).Nodup) (hi : q.index.lookup tag = some id)
    (hm : q.tree.node? id = some m) (ht : m.type = type) (hh : m.Has settings) :
    nodeFor tag type settings q = (.ok id, { q with used := id :: q.used }) := by
  rw [nodeFor_run, hi]
  dsimp only
  rw [hm]
  dsimp only
  rw [if_pos ht, reused, Tree.modifyNode_eq_self]
  intro n hn hid
  have := Tree.node?_of_mem hd hn
  rw [hid, hm] at this
  cases this
  exact refresh_of_has hh

def echo (q p' : Pass) (tag : String) (id : NodeId) (handles : List Handle) : Pass :=
  { q with
    tree := { q.tree with active := p'.tree.active }
    counts := p'.counts
    results := (tag, handles) :: q.results
    used := id :: q.used
    constants := p'.constants }

theorem framed_congr (hu : x ∈ p'.used ↔ x ∈ p.used)
    (hkept : x ∈ p.used → p'.tree.bare? x = p.tree.bare? x) : p'.Framed x ↔ p.Framed x := by
  unfold Framed
  rw [hu]
  refine and_congr_right fun hu => ?_
  have letter : ∀ {n m : Node}, n.orphan = m.orphan → Tag.letter? m.name = some 'G' →
      Tag.letter? n.name = some 'G' := by
    intro n m ho hm
    rwa [show n.name = m.name from show n.orphan.name = m.orphan.name by rw [ho]]
  constructor
  · rintro ⟨n', hn', hletter⟩
    obtain ⟨n, hn, ho⟩ := Tree.node?_of_bare? (hkept hu).symm hn'
    exact ⟨n, hn, letter ho hletter⟩
  · rintro ⟨n, hn, hletter⟩
    obtain ⟨n', hn', ho⟩ := Tree.node?_of_bare? (hkept hu) hn
    exact ⟨n', hn', letter ho hletter⟩

theorem Echoes.closes (he : Echoes T p q) (hp : p.Sound)
    (hc : Closes tag p id handles p') (hk : tag ∉ p.keys) (hl : Tag.letter? tag ≠ some 'G') :
    Echoes T p' (q.echo p' tag id handles) := by
  have kept : ∀ x ∈ p.used, p'.tree.bare? x = p.tree.bare? x :=
    fun x hx => hc.keeps.nodes x (apart_of_used hp hk hl hx)
  have framed : ∀ x, p'.Framed x ↔ p.Framed x := by
    intro x
    by_cases hx : x = id
    · subst hx
      constructor
      · rintro ⟨-, n', hn', hletter⟩
        obtain ⟨n, hn, hname⟩ := hc.node
        rw [hn'] at hn
        cases hn
        rw [hname] at hletter
        exact absurd hletter hl
      · rintro ⟨hu, -⟩
        exact absurd (apart_of_used hp hk hl hu) hc.own
    · exact framed_congr (by rw [hc.used, List.mem_cons, or_iff_right hx]) (kept x)
  exact {
    counts := rfl
    literals := he.literals.trans hc.literals.symm
    results := by
      rw [hc.results, ← he.results]
      rfl
    used := by
      rw [hc.used, ← he.used]
      rfl
    constants := rfl
    created := he.created
    index := he.index
    editor := he.editor.trans hc.grows.editor.symm
    links := he.links
    boundary := he.boundary
    supply := he.supply
    active := rfl
    ids := he.ids
    cores := he.cores
    framed := fun x hx => (he.framed x ((framed x).mp hx)).trans
      (face_of_bare? (kept x ((framed x).mp hx).1)).symm
    unframed := fun x hx => he.unframed x fun h => hx ((framed x).mpr h) }

/-- The inputs that a node holds are the same in the second pass. -/
theorem Echoes.fedAll {inputs : List (Nat × Operand)} {m : Node} (he : Echoes T p q)
    (hl : Leads p' T) (hs : p'.Settled id) (hn : p'.tree.node? id = some n)
    (hm : q.tree.node? id = some m) (hcore : m.core = n.core) (hfed : p'.tree.FedAll id inputs)
    (hargs : ∀ slot h, (slot, .handle h) ∈ inputs → p'.Settled h.node) :
    q.tree.FedAll id inputs := by
  intro slot operand hmem
  obtain ⟨k, input, hk, hinput, hf⟩ := hfed slot operand hmem
  rw [hn] at hk
  cases hk
  refine ⟨m, input, hm, by rw [Node.inputs_of_core hcore]; exact hinput, ?_⟩
  have hmem' : input.id ∈ n.inputIds := List.mem_map_of_mem (List.mem_of_getElem? hinput)
  have hfeed : ∀ y, q.tree.feedOf? y = T.feedOf? y := by
    intro y
    unfold Tree.feedOf?
    rw [he.links]
  cases operand with
  | handle h =>
    obtain ⟨hkind, hsource⟩ := hf
    refine ⟨hkind, ?_⟩
    rw [Tree.sourceOf?, hfeed, ← Tree.sourceOf?, hl.keeps.feeds id n _ hs hn hmem', hsource]
    intro r hr
    rw [hsource] at hr
    cases hr
    exact hargs slot h hmem
  | literal l =>
    obtain ⟨hfree, hdefault⟩ := hf
    refine ⟨?_, hdefault⟩
    have hnone : p'.tree.sourceOf? input.id = none := by
      rw [Tree.sourceOf?, hfree]
      rfl
    have hT := hl.keeps.feeds id n _ hs hn hmem' (by
      intro r hr
      rw [hnone] at hr
      cases hr)
    rw [hnone, Tree.sourceOf?, Option.map_eq_none_iff] at hT
    rw [hfeed]
    exact hT

theorem settled_of_closes {h : Handle} (hc : Closes tag p id handles p')
    (hh : h ∈ handles) : p'.Settled h.node :=
  .inr ⟨(tag, handles), by rw [hc.results]; exact List.mem_cons_self, h, hh, rfl⟩

/-- The second pass at the node that the first one made up. -/
def remade (q p' : Pass) (id : NodeId) : Pass :=
  { q with
    tree := { q.tree with active := p'.tree.active }
    used := id :: q.used
    constants := p'.constants }

variable {α : Type}

/-- A node that was drawn is found again. If making it up changes nothing then,
the second pass goes on as the first one did. -/
theorem replays_draw {s : Sketch α} (hp : p.Sound) (hs : s.Valid)
    (hr : p.results.lookup s.tag = none)
    (again : ∀ {id p₁ p₂ n a p' T q m}, s.Drawn p id p₁ p₂ n a p' → p'.Settled id → Leads p' T →
      Echoes T p q → q.tree.node? id = some m → m.core = n.core →
      s.make id { q with used := id :: q.used } = (.ok (), q.remade p' id)) :
    Replays s.draw p fun a p' => ∀ h ∈ s.list a, p'.Settled h.node := by
  intro a p' h
  obtain ⟨id, p₁, p₂, n, hd⟩ := hs.drawn hp hr h
  have hc := hd.closes
  refine ⟨hc.sound, hc.grows, fun g hg => settled_of_closes hc hg, fun T q hl he => ?_⟩
  obtain ⟨m, hm, hcore, hi⟩ := he.found hl (by rw [hc.used]; exact List.mem_cons_self) hd.node
  rw [hd.name] at hi
  have hread := ((hs.read id).run (p := q.remade p' id) hm).mpr
    ⟨p'.counts, he.counts ▸ hd.tapped.of_outputs (Node.outputs_of_core hcore), rfl⟩
  refine ⟨q.echo p' s.tag id (s.list a), ?_, he.closes hp hc (not_mem_keys hr) hs.letter⟩
  rw [Sketch.draw, bind_of_ok (nodeFor_again (he.nodup hl) hi hm
      ((Node.type_of_core hcore).trans hd.type) (hd.has.of_core hcore)),
    bind_of_ok (again hd (hd.settled hs) hl he hm hcore), bind_of_ok hread]
  rfl

theorem replays_wired {plan : NodePlan} {read : NodeId → PassM α} {list : α → List Handle}
    {taps : List (Nat × Kind)} (hp : p.Sound) (hs : (Sketch.wired tag plan read list taps).Valid)
    (hr : p.results.lookup tag = none) (hinputs : (plan.inputs.map Prod.fst).Nodup)
    (hargs : ∀ h, .handle h ∈ plan.inputs.map Prod.snd → p.Settled h.node) :
    Replays (Sketch.wired tag plan read list taps).draw p fun a p' =>
      ∀ h ∈ list a, p'.Settled h.node := by
  refine replays_draw hp hs hr fun {id _ _ _ _ p' T q m} hd hsettled hl he hm hcore => ?_
  obtain ⟨hactive, hconstants, hfed, -⟩ := hd.wires hinputs
  have hcontains : q.tree.contains id = true := Tree.contains_iff.mpr ⟨m, hm⟩
  have hactivate : activate id { q with used := id :: q.used } = (.ok (), q.remade p' id) := by
    show (Except.ok (), { q with tree := q.tree.setActive (some id), used := id :: q.used }) = _
    unfold Tree.setActive remade
    simp [hcontains, hactive, hconstants, he.constants]
  have hfed' := he.fedAll hl hsettled hd.node hm hcore hfed fun slot h hmem =>
    hd.closes.grows.settled (hargs h (List.mem_map_of_mem (f := Prod.snd) hmem))
  show (activate id >>= fun _ => wireAll id plan.inputs) _ = _
  rw [bind_of_ok hactivate]
  exact wireAll_of_fed hfed'

theorem replays_build {plan : NodePlan} (hp : p.Sound) (ht : Tag.IsCall tag)
    (hr : p.results.lookup tag = none) (hplan : plan.Proper)
    (hargs : ∀ h, .handle h ∈ plan.inputs.map Prod.snd → p.Settled h.node) :
    Replays (build tag plan) p fun h p' => p'.Settled h.node := by
  have hreplays := replays_wired hp (Sketch.valid_ofPlan ht hplan) hr hplan.inputs hargs
  refine hreplays.of_draw (fun q hq => build_of_new (by rw [hq, hr])) fun g p' h => ?_
  exact h g List.mem_cons_self

theorem Echoes.withLiterals (he : Echoes T p q) (k : Nat) :
    Echoes T { p with literals := k } { q with literals := k } :=
  { he with literals := rfl }

theorem replays_separate (hp : p.Sound)
    (hv : ∀ h, v = .handle h → p.Settled h.node) :
    Replays (separate v) p fun r p' =>
      p'.Settled r.1.node ∧ p'.Settled r.2.1.node ∧ p'.Settled r.2.2.node := by
  intro r p' h
  have hgrows := Grows.withLiterals (literals_le_markers p.literals [v])
  have hp₀ := hp.withLiterals (markers p.literals [v]).2
  rcases lookup_separation hp ⟨(markers p.literals [v]).1, rfl⟩ with hr | ⟨x, y, z, hr, hmem⟩
  · rw [separate_of_new hr] at h
    obtain ⟨hp', hg, hq, hreplay⟩ := replays_wired hp₀ (Sketch.valid_split ⟨_, rfl⟩) hr
      (by simp [Blueprint.separate, Blueprint.plan])
      (fun h hh => hv h (List.mem_singleton.mp hh).symm) r p' h
    refine ⟨hp', hgrows.trans hg, ?_, fun T q hl he => ?_⟩
    · exact ⟨hq _ (by simp), hq _ (by simp), hq _ (by simp)⟩
    obtain ⟨q', hq', he'⟩ := hreplay T _ hl (he.withLiterals _)
    refine ⟨q', ?_, he'⟩
    rw [separate_of_new (by rw [he.results, he.literals]; exact hr), he.literals]
    exact hq'
  · rw [separate_of_known hr] at h
    cases h
    have settled : ∀ g ∈ [x, y, z], p.Settled g.node := fun g hg => .inr ⟨_, hmem, g, hg, rfl⟩
    refine ⟨hp₀, hgrows, ⟨settled x (by simp), settled y (by simp), settled z (by simp)⟩,
      fun T q hl he => ⟨_, ?_, he.withLiterals _⟩⟩
    rw [separate_of_known (by rw [he.results, he.literals]; exact hr), he.literals]

open Numeric

theorem constantPosition_congr (h : t'.bare? .groupInput = t.bare? .groupInput)
    (k : Nat) : constantPosition t' k = constantPosition t k := by
  have : (t'.node? .groupInput).map (·.position) = (t.node? .groupInput).map (·.position) := by
    have := congrArg (·.map (·.position)) h
    simp only [Tree.bare?, Option.map_map] at this
    exact this
  unfold constantPosition
  rw [this]

theorem numbering_eq_self {x : Double} {position : Point} {m : Node}
    (hcore : m.core = (numbering x position n).core) (hp : m.position = position) :
    numbering x position m = m := by
  have hout : m.outputs = n.outputs.modify 0 fun s =>
      { s with default := some (.float x.toSingle) } :=
    Node.outputs_of_core hcore
  have : m.outputs.modify 0 (fun s => { s with default := some (.float x.toSingle) }) =
      m.outputs := by
    rw [hout]
    cases n.outputs <;> rfl
  unfold numbering Node.setOutputDefault
  rw [this, ← hp]

theorem replays_number (hp : p.Sound) {x : Double}
    (hr : p.results.lookup (Tag.constantMark ++ x.text) = none) :
    Replays (Sketch.number x).draw p fun h p' => ∀ g ∈ [h], p'.Settled g.node := by
  have hs := Sketch.valid_number x
  refine replays_draw hp hs hr fun {id p₁ p₂ n _ p' T q m} hd hsettled hl he hm hcore => ?_
  have hc := hd.closes
  obtain ⟨n₁, hn₁, -⟩ := hd.opened.node
  have htree := hd.tree
  have hconstants := hd.constants
  cases hd.made
  have hnum : n = numbering x (constantPosition p₁.tree p₁.constants) n₁ := by
    have hn := hd.node
    rw [htree] at hn
    exact Option.some.inj (hn.symm.trans (node?_numbering hn₁ _))
  have hconst : p₁.constants = q.constants := hd.opened.rest.2.2.2.trans he.constants.symm
  -- the place of the constant depends on the group input alone, which is settled
  have hanchor : constantPosition q.tree q.constants = constantPosition p₁.tree p₁.constants := by
    rw [hconst]
    apply constantPosition_congr
    obtain ⟨k, hk, -⟩ := hp.grouped.input
    obtain ⟨k', hqk, horphan⟩ := he.node? (hl.of_grows hc.grows) hp (.inl rfl) hk
    have h₁ : p'.tree.bare? .groupInput = p₁.tree.bare? .groupInput := by
      rw [htree]
      unfold Tree.bare?
      rw [Tree.node?_modifyNode (by intro n; rfl)]
      have : NodeId.groupInput ≠ id := fun h => hc.own (h ▸ (hp.grouped.apart hs.isTag).1)
      simp [this]
    rw [← h₁, hc.grows.keeps.nodes _ (.inl rfl)]
    unfold Tree.bare?
    rw [hqk, hk, Option.map_some, Option.map_some, horphan]
  have hposition : m.position = constantPosition q.tree q.constants := by
    have hnot : ¬p.Framed id :=
      fun hf => hc.own (apart_of_used hp (not_mem_keys hr) hs.letter hf.1)
    have hface := (he.unframed id hnot).trans (face_of_bare? (hl.keeps.nodes id hsettled))
    rw [hm, hd.node] at hface
    rw [(Prod.mk.inj (Option.some.inj hface)).2, hnum, hanchor]
    rfl
  have hself : q.tree.modifyNode id (numbering x (constantPosition q.tree q.constants)) =
      q.tree := by
    apply Tree.modifyNode_eq_self
    intro k hk hid
    have := Tree.node?_of_mem (he.nodup hl) hk
    rw [hid, hm] at this
    cases this
    refine numbering_eq_self (n := n₁) ?_ hposition
    rw [hcore, hnum, hanchor]
  have hactive : p'.tree.active = q.tree.active := by
    rw [htree, he.active]
    show p₁.tree.active = p.tree.active
    exact hd.opened.active_eq hp hs.isTag fun a ha =>
      apart_of_used hp (not_mem_keys hr) hs.letter ha
  show (Except.ok (), { q with
    tree := q.tree.modifyNode id (numbering x (constantPosition q.tree q.constants))
    used := id :: q.used
    constants := q.constants + 1 }) = _
  rw [hself, remade, hactive, hconstants, ← hconst]

theorem replays_constant (hp : p.Sound) (x : Double) :
    Replays (constant x) p fun h p' => p'.Settled h.node := by
  rcases lookup_results hp (Tag.constantMark ++ x.text) with hr | ⟨g', l, hr, hmem⟩
  · refine (replays_number hp hr).of_draw (fun q hq => constant_of_new (by rw [hq, hr]))
      fun g p' h => ?_
    exact h g List.mem_cons_self
  · intro g p' h
    rw [constant_of_known hr] at h
    cases h
    refine ⟨hp, .refl, .inr ⟨_, hmem, _, List.mem_cons_self, rfl⟩, fun T q _ he => ?_⟩
    exact ⟨q, constant_of_known (by rw [he.results]; exact hr), he⟩

theorem replays_frame {label : String} {m : NodeId} {rest : List NodeId} (hp : p.Sound)
    (hm : p.Settled m) : Replays (frame tag label (m :: rest)) p fun _ _ => True := by
  intro u p' h
  obtain ⟨id, p₁, h₁, hf⟩ := frame_spec hp h
  refine ⟨hf.sound, hf.grows, trivial, fun T q hl he => ?_⟩
  obtain ⟨n, hn, hname, htype, hlabel, hposition⟩ := hf.node
  obtain ⟨c, hc, hcore, hi⟩ := he.found hl (by rw [hf.used]; exact List.mem_cons_self) hn
  rw [hname] at hi
  obtain ⟨hcounts, hliterals, hconstants⟩ := hf.rest
  -- the first member is settled, so the frame goes to the same place
  obtain ⟨k, hk⟩ : ∃ k, p.tree.node? m = some k := by
    obtain rfl | ⟨-, k, hk, -⟩ := settled_used hp hm
    · obtain ⟨k, hk, -⟩ := hp.grouped.input
      exact ⟨k, hk⟩
    · exact ⟨k, hk⟩
  obtain ⟨k', hk', horphan⟩ := he.node? (hl.of_grows hf.grows) hp hm hk
  let position := ((m :: rest).head?.bind q.tree.node?).map (·.position)
  have hpos : position = some n.position := by
    show ((some m).bind q.tree.node?).map (·.position) = some n.position
    rw [Option.bind_some, hk', Option.map_some, hposition m rest k rfl hm hk]
    exact congrArg some (show k'.orphan.position = k.orphan.position by rw [horphan])
  let q' : Pass :=
    { q with
      used := id :: q.used
      tree := framedTree q.tree id label (m :: rest)
      groups := (id, m :: rest) :: q.groups }
  have hflat : q'.tree.flat = (q.tree.modifyNode id (captioned label position)).flat :=
    flat_framedTree _ _ _ _
  have hbare : ∀ x, q'.tree.bare? x =
      (q.tree.node? x).map fun n => (if x = id then captioned label position n else n).orphan := by
    intro x
    rw [Tree.bare?_of_flat hflat, Tree.bare?, Tree.node?_modifyNode (by intro n; rfl),
      Option.map_map]
    rfl
  have hcores : ∀ x, (q'.tree.node? x).map Node.core = (q.tree.node? x).map Node.core := by
    intro x
    have := congrArg (·.map Node.core) (hbare x)
    simp only [Tree.bare?, Option.map_map] at this
    refine this.trans (congrArg (fun f => (q.tree.node? x).map f) (funext fun n => ?_))
    show Node.core (Node.orphan _) = _
    split <;> rfl
  have hfaces : ∀ x, x ≠ id → (q'.tree.node? x).map Node.face = (q.tree.node? x).map Node.face := by
    intro x hx
    apply face_of_bare?
    rw [hbare]
    simp [hx, Tree.bare?]
  refine ⟨q', frame_run (nodeFor_again (he.nodup hl) hi hc ((Node.type_of_core hcore).trans htype)
    fun _ h => by cases h), ?_⟩
  have apart : ∀ x ∈ p.used, x ≠ id → p.tree.Apart (Tag.frameMark ++ tag) x := by
    intro x hx hne
    obtain ⟨y, hy, hyi, -⟩ := hp.used x hx
    by_cases hyname : y.name = Tag.frameMark ++ tag
    · exact absurd (nodeFor_used_frame hp hx hy hyname h₁).1 hne
    · exact ⟨y, hy, hyname⟩
  have hframed : ∀ x, x ≠ id → (p'.Framed x ↔ p.Framed x) := fun x hx =>
    framed_congr (by rw [hf.used, List.mem_cons, or_iff_right hx]) fun hu =>
      hf.keeps.nodes x (apart x hu hx)
  exact {
    counts := he.counts.trans hcounts.symm
    literals := he.literals.trans hliterals.symm
    results := he.results.trans hf.results.symm
    used := by
      rw [hf.used, ← he.used]
    constants := he.constants.trans hconstants.symm
    created := he.created
    index := he.index
    editor := (show q'.tree.flat.editor = _ by rw [hflat]; exact he.editor).trans
      hf.grows.editor.symm
    links := show q'.tree.flat.links = _ by rw [hflat]; exact he.links
    boundary := show q'.tree.flat.boundary = _ by rw [hflat]; exact he.boundary
    supply := show q'.tree.flat.supply = _ by rw [hflat]; exact he.supply
    active := (show q'.tree.flat.active = _ by rw [hflat]; exact he.active).trans hf.active.symm
    ids := by
      rw [Tree.map_id_of_flat hflat, Tree.map_id_modifyNode (by intro n; rfl)]
      exact he.ids
    cores := fun x => (hcores x).trans (he.cores x)
    framed := by
      intro x hx
      by_cases hid : x = id
      · subst hid
        have := congrArg (·.map Node.face) (hbare x)
        simp only [Tree.bare?, Option.map_map] at this
        refine this.trans ?_
        rw [hc, hn]
        show some (label, position.getD c.position) = some (n.label, n.position)
        rw [hpos, hlabel]
        rfl
      · rw [hfaces x hid, he.framed x ((hframed x hid).mp hx)]
        refine (face_of_bare? (hf.keeps.nodes x (apart x ?_ hid))).symm
        exact ((hframed x hid).mp hx).1
    unframed := by
      intro x hx
      have hid : x ≠ id := by
        rintro rfl
        refine hx ⟨by rw [hf.used]; exact List.mem_cons_self, n, hn, ?_⟩
        rw [hname, Tag.letter?_frame]
      rw [hfaces x hid, he.unframed x fun h => hx ((hframed x hid).mpr h)] }

end Pass

end FormulaGraph
