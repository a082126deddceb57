import FormulaGraph.Proofs.Pass.Orderly

/-!
The steps of an orderly pass. Each of them succeeds and leaves an orderly pass:
taking places for literals, keeping a result, drawing a node for a new tag, and
framing nodes.
-/

namespace FormulaGraph

open Run

namespace Tree

def frameLabels : List String :=
  ["Negate", "nRoot", "FloorDiv", "EntryWise FloatMath", "Vec Parallel FloatMath", "Batch MinMax",
    "Clamp|CompositorSpecial", "ClampAuto|CompositorSpecial"]

def Labelled (t : Tree) : Prop :=
  ∀ x n, t.node? x = some n → Tag.isTag n.name = true → n.type = .frame → n.label ∈ frameLabels

theorem Labelled.step {t t' : Tree} {id : NodeId} (h : t.Labelled) (hk : Keeps (· ≠ id) t t')
    (hown : ∀ n, t'.node? id = some n → n.type = .frame → n.label ∈ frameLabels) :
    t'.Labelled := by
  intro x n hn htag htype
  by_cases hx : x = id
  · exact hown n (hx ▸ hn) htype
  · obtain ⟨m, hm, horphan⟩ := node?_of_bare? (hk.nodes x hx).symm hn
    have hlabel : m.label = n.label := show m.orphan.label = n.orphan.label by rw [horphan]
    have hname : m.name = n.name := show m.orphan.name = n.orphan.name by rw [horphan]
    have hsame : m.type = n.type := show m.orphan.type = n.orphan.type by rw [horphan]
    exact hlabel ▸ h x m hm (hname ▸ htag) (hsame.trans htype)

theorem contains_of_keeps {t t' : Tree} {id x : NodeId} (hk : Keeps (· ≠ id) t t')
    (hx : t'.contains x = true) : t.contains x = true ∨ id = x := by
  by_cases hid : x = id
  · exact .inr hid.symm
  · obtain ⟨n, hn⟩ := contains_iff.mp hx
    obtain ⟨m, hm, -⟩ := node?_of_bare? (hk.nodes x hid).symm hn
    exact .inl (contains_iff.mpr ⟨m, hm⟩)

end Tree

namespace Pass

variable {α β : Type} {roster : List Handle} {p p' p'' : Pass} {tag : String} {id : NodeId}

def Gathered (p : Pass) (g : NodeId × List NodeId) : Prop :=
  g.1 ∈ p.used ∧ ∀ m ∈ g.2, p.Settled m ∧ p.tree.Together m g.1

/-- A later state of an orderly pass: it grows, and nothing is taken away. The
nodes made are counted, and the frames that were asked for hold their members. -/
structure Extends (p p' : Pass) : Prop extends Grows p p' where
  adds : Tree.Adds p.tree p'.tree
  fresh : ∀ x, p'.tree.contains x = true → p.tree.contains x = true ∨ x ∈ p'.used
  counted : p'.tree.generatedCount + p.created = p.tree.generatedCount + p'.created
  labels : p.tree.Labelled → p'.tree.Labelled
  gathers : p.tree.Framed → Tree.Gathers (· ∈ p'.used) p.tree p'.tree
  groups : p.tree.Framed → ∀ g ∈ p'.groups, g ∈ p.groups ∨ p'.Gathered g

namespace Extends

theorem of_tree (h : Grows p p') (ht : p'.tree = p.tree) (hc : p'.created = p.created)
    (hg : p'.groups = p.groups) : Extends p p' where
  toGrows := h
  adds := by rw [ht]; exact .refl
  fresh := by rw [ht]; exact fun _ => .inl
  counted := by rw [ht, hc]
  labels := by rw [ht]; exact fun hl => hl
  gathers := by rw [ht]; exact fun hf => .of_outline hf rfl
  groups := by rw [hg]; exact fun _ g h => .inl h

theorem refl : Extends p p := .of_tree .refl rfl rfl rfl

theorem trans (h : Extends p p') (h' : Extends p' p'') : Extends p p'' where
  toGrows := h.toGrows.trans h'.toGrows
  adds := h.adds.trans h'.adds
  fresh := fun x hx =>
    (h'.fresh x hx).elim (fun hx => (h.fresh x hx).imp_right fun hu => h'.used hu) .inr
  counted := by
    have := h.counted
    have := h'.counted
    omega
  labels := fun hl => h'.labels (h.labels hl)
  gathers := fun hf =>
    ((h.gathers hf).mono fun _ hu => h'.used hu).trans (h'.gathers (h.gathers hf).framed)
  groups := by
    intro hf g hg
    have hgathers := h'.gathers (h.gathers hf).framed
    rcases h'.groups (h.gathers hf).framed g hg with hg | hg
    · refine (h.groups hf g hg).imp_right fun hg' => ⟨h'.used hg'.1, fun m hm => ?_⟩
      exact ⟨h'.settled (hg'.2 m hm).1, hgathers.together (hg'.2 m hm).2⟩
    · exact .inr hg

theorem withLiterals {k : Nat} (h : p.literals ≤ k) : Extends p { p with literals := k } :=
  .of_tree (.withLiterals h) rfl rfl rfl

theorem keep (tag : String) (h : Handle) :
    Extends p { p with results := (tag, [h]) :: p.results } :=
  .of_tree (.keep tag h) rfl rfl rfl

/-- A node that was got for a tag and then edited. -/
theorem of_local {p₁ : Pass} {n : Node} (h : Grows p p') (hf : Fetches p p₁)
    (hk : Tree.Keeps (· ≠ id) p.tree p'.tree) (hlocal : p₁.tree.Local id p'.tree)
    (hs : p₁.tree.Sane) (hn : p₁.tree.node? id = some n) (htag : Tag.isTag n.name = true)
    (htype : n.type ≠ .frame) (hu : p'.used = id :: p.used) (hc : p'.created = p₁.created)
    (hg : p'.groups = p₁.groups) : Extends p p' where
  toGrows := h
  adds := hf.adds.trans (.of_local hlocal hs fun m hm => by cases hn.symm.trans hm; exact htag)
  fresh := by
    intro x hx
    refine (Tree.contains_of_keeps hk hx).imp_right fun hid => ?_
    rw [hu, hid]
    exact List.mem_cons_self
  counted := by
    rw [Tree.generatedCount_of_outline (hlocal.outline hs), hc]
    exact hf.counted
  labels := by
    refine fun hl => hl.step hk fun m hm hframe => ?_
    obtain ⟨n', hn', -, -, heq⟩ := hlocal.own n hn
    cases hm.symm.trans hn'
    exact absurd (heq.symm.trans hframe) htype
  gathers := fun hframed =>
    (hf.gathers _ hframed).trans (.of_outline (hf.gathers (· ∈ p'.used) hframed).framed
      (hlocal.outline hs))
  groups := by
    rw [hg, hf.groups]
    exact fun _ g h => .inl h

end Extends

/-- From an orderly pass, a step succeeds and gives an orderly pass with a
postcondition. -/
def Gives (roster : List Handle) (m : PassM α) (p : Pass) (Q : α → Pass → Prop) : Prop :=
  ∃ a p', m p = (.ok a, p') ∧ p'.Orderly roster ∧ Extends p p' ∧ Q a p'

namespace Gives

variable {m : PassM α} {f : α → PassM β} {Q R : α → Pass → Prop} {S : β → Pass → Prop}

theorem pure (hp : p.Orderly roster) {a : α} (h : Q a p) : Gives roster (Pure.pure a) p Q :=
  ⟨a, p, rfl, hp, .refl, h⟩

theorem bind (hm : Gives roster m p Q) (hf : ∀ a p', p'.Orderly roster → Grows p p' → Q a p' →
    Gives roster (f a) p' S) : Gives roster (m >>= f) p S := by
  obtain ⟨a, p₁, h₁, hp₁, hg₁, hq⟩ := hm
  obtain ⟨b, p₂, h₂, hp₂, hg₂, hs⟩ := hf a p₁ hp₁ hg₁.toGrows hq
  exact ⟨b, p₂, by rw [bind_of_ok h₁, h₂], hp₂, hg₁.trans hg₂, hs⟩

theorem mono (hm : Gives roster m p Q) (h : ∀ a p', Grows p p' → Q a p' → R a p') :
    Gives roster m p R := by
  obtain ⟨a, p₁, h₁, hp₁, hg₁, hq⟩ := hm
  exact ⟨a, p₁, h₁, hp₁, hg₁, h a p₁ hg₁.toGrows hq⟩

end Gives

namespace Orderly

theorem silent (hp : p.Orderly roster) (hg : Grows p p') (hr : p'.results = p.results)
    (hs : p'.Sound) (ht : p'.tree.Tidy) : p'.Orderly roster := by
  have hsettled : p'.Settled = p.Settled := by
    funext x
    rw [Settled, Settled, hr]
  have hknown : Known roster p' = Known roster p := by
    funext g
    rw [Known, Known, hr]
  refine ⟨hs, ht, ?_, hp.inputs, ?_, by rw [hknown]; exact hp.unique, ?_⟩
  · rw [hsettled]
    exact hp.closed.keeps hg.keeps
  · rw [hknown]
    exact fun g hg' => Nat.lt_of_lt_of_le (hp.numbered g hg') (hg.counts g.kind)
  · rw [hr]
    exact fun e he => (hp.explained e he).grows hp hg

theorem withLiterals (hp : p.Orderly roster) {k : Nat} (h : p.literals ≤ k) :
    ({ p with literals := k } : Pass).Orderly roster :=
  hp.silent (.withLiterals h) rfl (hp.sound.withLiterals k) hp.tidy

/-- A result kept under one more tag that explains it. -/
theorem keep (hp : p.Orderly roster) {h : Handle} (ht : Tag.IsCall tag)
    (hm : Explained roster p tag [h]) (hh : Known roster p h) :
    ({ p with results := (tag, [h]) :: p.results } : Pass).Orderly roster := by
  have known : ∀ g, Known roster { p with results := (tag, [h]) :: p.results } g →
      Known roster p g := by
    rintro g (hg | ⟨e, he, hg⟩)
    · exact .inl hg
    · rcases List.mem_cons.mp he with rfl | he
      · rwa [List.mem_singleton.mp hg]
      · exact .inr ⟨e, he, hg⟩
  have hgrows : Grows p { p with results := (tag, [h]) :: p.results } := .keep tag h
  have settled : ∀ x, Settled { p with results := (tag, [h]) :: p.results } x → p.Settled x := by
    rintro x (hx | ⟨e, he, g, hg, rfl⟩)
    · exact .inl hx
    · exact (known g (.inr ⟨e, he, hg⟩)).settled hp
  refine ⟨hp.sound.keep ht (hh.settled hp), hp.tidy, ?_, hp.inputs,
    fun g hg => hp.numbered g (known g hg),
    fun g g' hg hg' => hp.unique g g' (known g hg) (known g' hg'), ?_⟩
  · intro x n y r hx hn hy hr
    exact hgrows.settled (hp.closed x n y r (settled x hx) hn hy hr)
  · intro e he
    rcases List.mem_cons.mp he with rfl | he
    · exact hm.grows hp hgrows
    · exact (hp.explained e he).grows hp hgrows

/-- What a node drawn for a new tag has to be for the pass to stay orderly. -/
structure Draws (roster : List Handle) (tag : String) (p : Pass) (id : NodeId)
    (handles : List Handle) (p' : Pass) : Prop extends Closes tag p id handles p' where
  tagged : Tag.isTag tag = true
  others : Tree.Keeps (· ≠ id) p.tree p'.tree
  shaped : ∀ n, p'.tree.node? id = some n → ∃ shape, Tag.Shapes tag shape ∧ p'.tree.Follows n shape
  sources : ∀ n x r, p'.tree.node? id = some n → x ∈ n.inputIds → p'.tree.sourceOf? x = some r →
    p.Settled r.node
  on : ∀ h ∈ handles, h.node = id
  fresh : ∀ h ∈ handles, p.counts.get h.kind ≤ h.number ∧ h.number < p'.counts.get h.kind
  apart : ∀ h ∈ handles, ∀ h' ∈ handles, h.kind = h'.kind → h.number = h'.number → h = h'
  explained : Explained roster p' tag handles

theorem draws (hp : p.Orderly roster) (id : NodeId) {handles : List Handle}
    (hd : Draws roster tag p id handles p') : p'.Orderly roster := by
  have settled : ∀ x, p'.Settled x → x = id ∨ p.Settled x := by
    rintro x (hx | ⟨e, he, g, hg, rfl⟩)
    · exact .inr (.inl hx)
    · rw [hd.results] at he
      rcases List.mem_cons.mp he with rfl | he
      · exact .inl (hd.on g hg)
      · exact .inr (.inr ⟨e, he, g, hg, rfl⟩)
  obtain ⟨n, hn, hname⟩ := hd.node
  obtain ⟨hnumbered, hunique⟩ := hp.distinct.closes hd.toCloses hd.fresh hd.apart
  refine ⟨hd.sound, ?_, ?_, hp.inputs, hnumbered, hunique, ?_⟩
  · have hgroup := hd.sound.grouped.not_group hn (by rw [hname]; exact hd.tagged)
    exact hp.tidy.step hd.others hd.sound.sane hd.sound.grouped hgroup hn
      (by rw [hname]; exact hd.shaped n hn)
  · intro x m y r hx hm hy hr
    rcases settled x hx with rfl | hx
    · exact hd.grows.settled (hd.sources m y r hm hy hr)
    · exact hd.grows.settled (hp.closed.keeps hd.grows.keeps x m y r hx hm hy hr)
  · intro e he
    rw [hd.results] at he
    rcases List.mem_cons.mp he with rfl | he
    · exact hd.explained
    · exact (hp.explained e he).grows hp hd.grows

end Orderly

/-- Framing nodes succeeds and does not change what handles stand for. -/
theorem frame_gives (hp : p.Orderly roster) (tag : String) {label : String}
    (hlabel : label ∈ Tree.frameLabels) {members : List NodeId} (hm : ∀ m ∈ members, p.Settled m) :
    Gives roster (frame tag label members) p fun _ _ => True := by
  have htag := Tag.isTag_frame tag
  have hshape : Tag.Shapes (Tag.frameMark ++ tag) ⟨.frame, [], []⟩ := .frame rfl
  obtain ⟨id, p₁, n₁, h₁, hkeeps₁, hfetches₁, hn₁, hname₁, hfollows₁⟩ :=
    nodeFor_tidy hp.sound hp.tidy
    htag hshape (by simp) (by cases p.tree.editor <;> rfl)
  have hrun : frame tag label members p = _ := frame_run h₁
  obtain ⟨id', p₁', h₁', henframes⟩ := frame_spec hp.sound hrun
  rw [h₁] at h₁'
  cases h₁'
  have hflat := flat_framedTree p₁.tree id label members
  have ho := hp.sound.opened htag (by simp) h₁
  have hlocal := local_placed p₁.tree id label members
  have hothers : Tree.Keeps (· ≠ id) p.tree (framedTree p₁.tree id label members) :=
    hkeeps₁.trans (keeps_framedTree _ _ _ _ ho.sane fun h => h rfl) fun _ h => h
  obtain ⟨n, hn, horphan⟩ := node?_framedTree p₁.tree id label members hn₁
  have hname : n.name = Tag.frameMark ++ tag :=
    show n.orphan.name = _ by rw [horphan]; exact hname₁
  have hfeeds : ∀ x, (framedTree p₁.tree id label members).feedOf? x = p₁.tree.feedOf? x := by
    intro x
    unfold Tree.feedOf?
    rw [Tree.links_of_flat hflat]
    rfl
  have hfollows : (framedTree p₁.tree id label members).Follows n ⟨.frame, [], []⟩ := by
    have hcaption : ∀ position, p₁.tree.Follows (captioned label position n₁) ⟨.frame, [], []⟩ :=
      fun _ => ⟨hfollows₁.type, hfollows₁.properties, hfollows₁.inputs, hfollows₁.outputs,
        hfollows₁.rest⟩
    exact (hcaption _).congr horphan fun s _ hfree => (hfeeds s.id).trans hfree
  have hgroup := henframes.sound.grouped.not_group hn (by rw [hname]; exact htag)
  have hcaption : Tree.Adds p₁.tree (placed p₁.tree id label members) :=
    .of_local hlocal ho.sane fun m hm => by
      rw [hn₁] at hm
      cases hm
      rw [hname₁]
      exact htag
  have hgathers := fun hf : p.tree.Framed =>
    Tree.gathers_framedTree (hfetches₁.gathers (· = id) hf).framed
      ⟨tag, by rw [hn₁, ← hname₁]; rfl⟩ label fun m hmem => by
        obtain ⟨k, hk⟩ := node?_of_settled hp.sound (hm m hmem)
        obtain ⟨k', hk', hname', -⟩ := hfetches₁.adds.nodes m k hk
        refine ⟨Tree.contains_iff.mpr ⟨k', hk'⟩, fun ⟨tag', htag'⟩ => ?_⟩
        rw [hk', Option.map_some, hname'] at htag'
        exact name_of_settled hp.sound (hm m hmem) hk tag' (Option.some.inj htag')
  have hused : id ∈ p₁.used := by
    rw [ho.used]
    exact List.mem_cons_self
  refine ⟨(), _, hrun, hp.silent henframes.grows henframes.results henframes.sound
    (hp.tidy.step hothers henframes.sound.sane henframes.sound.grouped hgroup hn
      ⟨_, by rw [hname]; exact hshape, hfollows⟩),
    ⟨henframes.grows, (hfetches₁.adds.trans hcaption).trans (Tree.adds_of_flat hflat),
      fun x hx => (Tree.contains_of_keeps hothers hx).imp_right fun hid => by rwa [← hid], ?_,
      fun hl => hl.step hothers ?_, fun hf => ?_, fun hf g hg => ?_⟩, trivial⟩
  · rw [Tree.generatedCount_of_flat hflat,
      Tree.generatedCount_of_outline (hlocal.outline ho.sane)]
    exact hfetches₁.counted
  · intro m hm' _
    obtain ⟨k, hk, -, -, hlab, -⟩ := henframes.node
    cases hk.symm.trans hm'
    rwa [hlab]
  · refine (hfetches₁.gathers _ hf).trans ((hgathers hf).1.mono ?_)
    rintro f rfl
    exact hused
  · rcases List.mem_cons.mp hg with rfl | hg
    · refine .inr ⟨hused, fun m hmem => ⟨henframes.grows.settled (hm m hmem), ?_⟩⟩
      exact (hgathers hf).2 m hmem
    · rw [hfetches₁.groups] at hg
      exact .inl hg

end Pass

end FormulaGraph
