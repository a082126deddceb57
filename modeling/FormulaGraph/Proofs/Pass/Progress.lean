import FormulaGraph.Proofs.Pass.Calls
import FormulaGraph.Proofs.Pass.Working

/-!
Calls whose operands have been checked go on to the end: whatever the layers of
a construction do are moves of the pass, and none of them finds fault with the
operands. They can still fail, where the tree refuses a link.
-/

namespace FormulaGraph

open Run Relation

namespace Blueprint

variable {f : Function} {args : List Operand} {b : Blueprint Operand}

/-- Only combinations are built without settings. -/
theorem settings_of_fixed {isV : Operand → Bool} (h : native isV f args = some b)
    (hf : b.type.isFixed = true) : b.settings = [] := by
  cases hs : isSpecial f args.length with
  | false =>
    rw [native_plain hs, plain] at h
    split at h
    · cases h
      unfold mapRange at hf
      split at hf <;> cases hf
    · split at h
      · obtain ⟨op, -, rfl⟩ := Option.map_eq_some_iff.mp h
        cases hf
      · obtain ⟨op, -, rfl⟩ := Option.map_eq_some_iff.mp h
        cases hf
  | true =>
    cases f with
    | lerp | mix =>
      obtain ⟨factor, a, b, rfl⟩ := List.length_eq_three.mp (beq_iff_eq.mp hs)
      cases h
      unfold mix at hf
      split at hf <;> cases hf
    | clamp | clampauto =>
      cases h
      cases hf
    | combixyz =>
      cases h
      rfl
    | rotaxis =>
      rcases args with _ | ⟨v, _ | ⟨axis, _ | ⟨angle, center⟩⟩⟩
      · cases hs
      · cases hs
      · cases hs
      · cases h
        cases hf
    | _ => cases hs

theorem IsFor.neat (h : b.IsFor f args) : b.Neat := by
  rcases h with h | ⟨-, op, rfl⟩
  · exact neat_native h
  · exact ⟨by simp [math], nodup_row _ _, rfl⟩

theorem IsFor.suits (h : b.IsFor f args) (ms : List String) :
    Tag.Suits (Tag.operation f.name ms) b.type b.settings := by
  refine Tag.suits_operation (fun hf => ?_) (fun hs => absurd hs (Pass.not_isSeparation f ms))
    fun hc => ?_
  · rcases h with h | ⟨-, op, rfl⟩
    · exact settings_of_fixed h hf
    · cases hf
  · have hf : f = .combixyz := by_contra fun hf => Tag.not_isCombination hf ms hc
    subst hf
    rcases h with h | ⟨hf, -⟩
    · cases h
      rfl
    · simp at hf

end Blueprint

namespace Pass

variable {b : Blueprint Operand} {editor : Editor}

/-- A computation makes moves of the pass. What it gives and what it fails with
is as described. -/
def Behaves (roster : List Handle) (scope : Scope) {α : Type} (m : PassM α) (p : Pass)
    (Q : α → Pass → Prop) (E : Fault → Pass → Prop) : Prop :=
  p.Viable → Runs roster scope p (m p).2 ∧ (∀ a, (m p).1 = .ok a → Q a (m p).2) ∧
    ∀ fault, (m p).1 = .error fault → E fault (m p).2

/-- A computation fails for no reason that lies with the operands. -/
abbrev Proceeds (roster : List Handle) (scope : Scope) {α : Type} (m : PassM α) (p : Pass)
    (Q : α → Pass → Prop) : Prop :=
  Behaves roster scope m p Q fun fault _ => fault.rejects = false

def Scope.Calls (scope : Scope) : Prop := ∀ tag, Tag.letter? tag ≠ some 'D' → scope.tags tag

structure Scope.Splices (scope : Scope) : Prop where
  separate : ∀ tag, Tag.IsSeparation tag → scope.tags tag
  combine : ∀ tag, Tag.IsCombination tag → scope.tags tag
  frame : ∀ tag, Tag.isTag tag = true → Tag.letter? tag = some 'G' → scope.tags tag

structure Given (p : Pass) (h : Handle) : Prop where
  mem : ∃ e ∈ p.results, h ∈ e.2
  numeric : h.kind.isNumeric = true

/-- A call that is to be built under a tag without results. -/
structure Due (roster : List Handle) (p : Pass) (tag : String) (f : Function)
    (args : List Operand) : Prop where
  name : ∃ k, tag = Tag.operation f.name (markers k args).1 ∧ (markers k args).2 ≤ p.literals
  isNew : p.results.lookup tag = none
  usable : ∀ a ∈ args, Usable roster p a

variable {roster : List Handle} {scope : Scope} {α β : Type} {m : PassM α} {p q : Pass}
  {Q : α → Pass → Prop} {tag : String} {f : Function} {args : List Operand} {h : Handle}

namespace Behaves

variable {E : Fault → Pass → Prop}

theorem pure {a : α} (h : Q a p) : Behaves roster scope (pure a : PassM α) p Q E := by
  refine fun _ => ⟨.refl, fun b hb => ?_, fun _ hf => (by cases hf)⟩
  cases hb
  exact h

theorem throw {fault : Fault} (h : E fault p) :
    Behaves roster scope (throw fault : PassM α) p Q E := by
  refine fun _ => ⟨.refl, fun _ ha => (by cases ha), fun f hf => ?_⟩
  cases hf
  exact h

theorem bind {k : α → PassM β} {R : β → Pass → Prop} (hm : Behaves roster scope m p Q E)
    (hk : ∀ a q, Gains p q → Q a q → Behaves roster scope (k a) q R E) :
    Behaves roster scope (m >>= k) p R E := by
  intro hp
  obtain ⟨hruns, hq, hfault⟩ := hm hp
  rw [bind_run]
  rcases hrun : m p with ⟨fault | a, q⟩
  · rw [hrun] at hruns hfault
    refine ⟨hruns, fun _ hb => (by cases hb), fun f hf => ?_⟩
    cases hf
    exact hfault fault rfl
  · rw [hrun] at hruns hq
    obtain ⟨hruns', hr, hfault'⟩ := hk a q (.runs hruns) (hq a rfl) (hp.runs hruns)
    exact ⟨hruns.trans hruns', hr, hfault'⟩

theorem congr {m' : PassM α} (h : m p = m' p) (hm : Behaves roster scope m' p Q E) :
    Behaves roster scope m p Q E := by
  unfold Behaves
  rw [h]
  exact hm
section

variable (hm : Behaves roster scope m p Q E)
include hm

theorem mono {R : α → Pass → Prop}
    (h : ∀ a q, Gains p q → Q a q → R a q) : Behaves roster scope m p R E := by
  intro hp
  obtain ⟨hruns, hq, hfault⟩ := hm hp
  exact ⟨hruns, fun a ha => h a _ (.runs hruns) (hq a ha), hfault⟩

theorem weaken {E' : Fault → Pass → Prop}
    (h : ∀ fault q, E fault q → E' fault q) : Behaves roster scope m p Q E' := by
  intro hp
  obtain ⟨hruns, hq, hfault⟩ := hm hp
  exact ⟨hruns, hq, fun fault hf => h fault _ (hfault fault hf)⟩

theorem viably : Behaves roster scope m p (fun a q => q.Viable ∧ Q a q) E := by
  intro hp
  obtain ⟨hruns, hq, hfault⟩ := hm hp
  exact ⟨hruns, fun a ha => ⟨hp.runs hruns, hq a ha⟩, hfault⟩

theorem running : Behaves roster scope m p (fun a q => Runs roster scope p q ∧ Q a q) E := by
  intro hp
  obtain ⟨hruns, hq, hfault⟩ := hm hp
  exact ⟨hruns, fun a ha => ⟨hruns, hq a ha⟩, hfault⟩

theorem loosen {wider : Scope} (hs : scope.Inside wider) : Behaves roster wider m p Q E := by
  intro hp
  obtain ⟨hruns, hq⟩ := hm hp
  exact ⟨hruns.loosen hs, hq⟩

end

theorem of_viable (h : p.Viable → Behaves roster scope m p Q E) :
    Behaves roster scope m p Q E := fun hp => h hp hp

theorem after {m' : PassM α} (hmove : Moves roster scope p q) (h : m p = m' q)
    (hm : Behaves roster scope m' q Q E) : Behaves roster scope m p Q E := by
  intro hp
  obtain ⟨hruns, hq, hfault⟩ := hm (hp.move hmove)
  rw [h]
  exact ⟨.head hmove hruns, hq, hfault⟩

theorem tagged {k : String → PassM α} (op : String) (args : List Operand)
    (hk : Behaves roster scope (k (Tag.operation op (markers p.literals args).1))
      { p with literals := (markers p.literals args).2 } Q E) :
    Behaves roster scope (Pass.tag op args >>= k) p Q E :=
  .after (.note (fun _ => Nat.le_refl _) (literals_le_markers _ _))
    (bind_of_ok (tag_run op args)) hk

theorem ofTree {k : Tree → PassM α} (hk : Behaves roster scope (k p.tree) p Q E) :
    Behaves roster scope (getTree >>= k) p Q E := hk

end Behaves

theorem Given.mono (h' : Given p h) (hg : Gains p q) : Given q h := by
  obtain ⟨e, he, hh⟩ := h'.mem
  exact ⟨⟨e, hg.results.subset he, hh⟩, h'.numeric⟩

theorem Given.usable (h' : Given p h) : Usable roster p (.handle h) :=
  .of_handle (.inr h'.mem) h'.numeric

theorem Usable.gains {o : Operand} (h : Usable roster p o) (hg : Gains p q) : Usable roster q o :=
  h.mono hg.results

theorem usable_scalar (x : Numeric.Single) : Usable roster p (.scalar x) :=
  ⟨fun _ hg => (by cases hg), rfl⟩

theorem Viable.given (hp : p.Viable) {l : List Handle} (hm : (tag, h :: l) ∈ p.results) :
    Given p h :=
  ⟨⟨_, hm, List.mem_cons_self⟩, (hp.entries _ hm).numeric h List.mem_cons_self⟩

theorem Viable.lookup_cases (hp : p.Viable) (tag : String) : p.results.lookup tag = none ∨
    ∃ g l, p.results.lookup tag = some (g :: l) ∧ Given p g := by
  cases hr : p.results.lookup tag with
  | none => exact .inl rfl
  | some handles =>
    have hm := mem_of_lookup hr
    obtain ⟨g, l, heq⟩ := (hp.entries _ hm).exists_head
    subst heq
    exact .inr ⟨g, l, rfl, hp.given hm⟩

theorem Due.tagged (hd : Due roster p tag f args) : ∃ ms, tag = Tag.operation f.name ms := by
  obtain ⟨k, rfl, -⟩ := hd.name
  exact ⟨_, rfl⟩

theorem Scope.Calls.operation {op : String} {ms : List String} (h : scope.Calls)
    (ht : tag = Tag.operation op ms) : scope.tags tag := by
  refine h tag ?_
  rw [ht, Tag.letter?_operation]
  decide

theorem Scope.Calls.splices (h : scope.Calls) : scope.Splices where
  separate := fun _ ht => h.operation ht.choose_spec
  combine := fun _ ht => h.operation ht.choose_spec
  frame := fun tag _ hletter => h tag (by rw [hletter]; decide)

section Nodes

/-- The node of a new tag is drawn, where making it up is work on the node. -/
theorem proceeds_draw {s : Sketch α} (hs : s.Valid) (hw : scope.tags s.tag)
    (hr : p.results.lookup s.tag = none) (hb : s.type.isBuilt = true)
    (ho : p.tree.editor.offers s.type = true) (hsuits : Tag.Suits s.tag s.type s.settings)
    (houts : ∀ e ∈ s.taps, ∃ spec, s.type.outputs[e.1]? = some spec)
    (hentry : ∀ {handles : List Handle}, handles.map (·.kind) = s.taps.map Prod.snd →
      Entry s.tag handles)
    (hmake : ∀ {id p₁}, Opened s.tag s.type s.settings p id p₁ → p₁.Viable →
      p₁.results = p.results → Works roster s.tag p₁ (s.make id p₁).2 ∧
        ∀ fault, (s.make id p₁).1 = .error fault → fault.rejects = false) :
    Proceeds roster scope s.draw p fun a q => q.results.lookup s.tag = some (s.list a) ∧
      (s.list a).map (·.kind) = s.taps.map Prod.snd := by
  intro hp
  have hnew : s.tag ∉ p.keys := not_mem_keys hr
  obtain ⟨id, p₁, hrun, hopened, hwork⟩ : ∃ id q, nodeFor s.tag s.type s.settings p = (.ok id, q) ∧
      Opened s.tag s.type s.settings p id q ∧ Works roster s.tag p q :=
    nodeFor_works hp hs.isTag hb ho hs.settings hsuits
  obtain ⟨hmakes, hfault⟩ := hmake hopened (hp.work hs.isTag hnew hwork) hwork.results
  have hworks := hwork.trans hmakes
  have hmove : Moves roster scope p (s.make id p₁).2 := .work hs.isTag hnew hw hworks
  rcases hq : s.make id p₁ with ⟨fault | u, q⟩
  · rw [Sketch.draw, bind_of_ok hrun, bind_run, hq]
    rw [hq] at hmove hfault
    refine ⟨.single hmove, fun _ ha => (by cases ha), fun f hf => ?_⟩
    cases hf
    exact hfault fault rfl
  · rw [hq] at hmove hworks
    have hq' := hp.move hmove
    obtain ⟨n₁, hn₁, hname₁, htype₁, -⟩ := hopened.node
    obtain ⟨n, hn, -, hname, htype⟩ := (hs.make hopened hq).isLocal.own n₁ hn₁
    have hgroup : n.id.isGroup = false := by
      rw [Tree.id_of_node? hn]
      exact hq'.hosted.grouped.not_group hn (by rw [hname, hname₁, hs.isTag])
    obtain ⟨a, counts, htapped, hdraw⟩ := hs.draw_of_outputs hrun hq hn fun e he => by
      obtain ⟨spec, hspec⟩ := houts e he
      obtain ⟨out, hout, -⟩ := (hq'.equipped n (Tree.mem_of_node? hn)).output hgroup
        (by rw [htype, htype₁]; exact hspec)
      exact ⟨out, hout⟩
    rw [hdraw]
    refine ⟨.tail (.single hmove) (.give ?_ hn (hname.trans hname₁) htapped.on
      (hentry htapped.kinds) htapped.fresh htapped.apart htapped.le), fun a' ha => ?_,
      fun _ hf => (by cases hf)⟩
    · unfold keys
      rw [hworks.results]
      exact hnew
    · cases ha
      exact ⟨List.lookup_cons_self, htapped.kinds⟩

theorem proceeds_wired {plan : NodePlan} {read : NodeId → PassM α} {list : α → List Handle}
    {taps : List (Nat × Kind)} (hs : (Sketch.wired tag plan read list taps).Valid)
    (hw : scope.tags tag) (hr : p.results.lookup tag = none) (hb : plan.type.isBuilt = true)
    (ho : p.tree.editor.offers plan.type = true) (hsuits : Tag.Suits tag plan.type plan.settings)
    (houts : ∀ e ∈ taps, ∃ spec, plan.type.outputs[e.1]? = some spec)
    (hentry : ∀ {handles : List Handle}, handles.map (·.kind) = taps.map Prod.snd →
      Entry tag handles)
    (hin : ∀ e ∈ plan.inputs, Usable roster p e.2)
    (hfree : ∀ e ∈ plan.inputs, ¬Tag.Spares tag plan.type e.1) :
    Proceeds roster scope (Sketch.wired tag plan read list taps).draw p fun a q =>
      q.results.lookup tag = some (list a) ∧ (list a).map (·.kind) = taps.map Prod.snd := by
  refine proceeds_draw hs hw hr hb ho hsuits houts hentry fun {id p₁} hopened hp₁ hresults => ?_
  have hactive : Works roster tag p₁ { p₁ with tree := p₁.tree.setActive (some id) } :=
    activate_works hp₁ hopened.index
  have hnew : tag ∉ p₁.keys := by
    unfold keys
    rw [hresults]
    exact not_mem_keys hr
  obtain ⟨n, hn, -, htype, -⟩ := hopened.node
  obtain ⟨hwires, -, hfault⟩ := wireAll_works (hp₁.work hs.isTag hnew hactive) hnew hopened.index
    (fun e he => (hin e he).mono (by rw [← hresults])) fun m hm => by
      cases hn.symm.trans hm
      exact htype ▸ hfree
  exact ⟨hactive.trans hwires, hfault⟩

theorem given_of_kinds {kind : Kind} (hk : kind.isNumeric = true)
    (h : q.results.lookup tag = some [g] ∧ [g].map (·.kind) = [kind]) : Given q g :=
  ⟨⟨_, mem_of_lookup h.1, List.mem_cons_self⟩,
    by rw [show g.kind = kind from List.singleton_inj.mp h.2, hk]⟩

structure Serves (editor : Editor) (f : Function) (args : List Operand) (b : Blueprint Operand) :
    Prop where
  isFor : b.IsFor f args
  offered : editor.offers b.type = true
  kind : b.kind.isNumeric = true
  output : ∃ spec, b.type.outputs[b.output]? = some spec
  inputs : ∀ e ∈ b.inputs, e.2 ∈ args

theorem Due.isCall (hd : Due roster p tag f args) : Tag.IsCall tag := by
  obtain ⟨ms, hms⟩ := hd.tagged
  exact ⟨f, ms, hms⟩

/-- The node of a call under a new tag. -/
theorem proceeds_build_new (hw : scope.tags tag) (hd : Due roster p tag f args)
    (hb : Serves p.tree.editor f args b) :
    Proceeds roster scope (build tag b.plan) p fun h q => Given q h := by
  obtain ⟨k, htag, -⟩ := hd.name
  have hneat := hb.isFor.neat
  have hdraw : Proceeds roster scope (Sketch.ofPlan tag b.plan).draw p _ := proceeds_wired
    (Sketch.valid_ofPlan hd.isCall ⟨hneat.settings, hneat.slots⟩) hw hd.isNew hneat.built hb.offered
    (htag ▸ hb.isFor.suits _) (List.forall_mem_singleton.mpr hb.output)
    (fun hk => by
      obtain ⟨g, rfl, hg⟩ := List.map_eq_singleton_iff.mp hk
      exact .call htag (by rw [hg]; exact hb.kind))
    (fun e he => hd.usable e.2 (hb.inputs e he))
    fun e he hs => hs.free f k args b htag hb.isFor rfl (List.mem_map_of_mem he)
  exact .congr (build_of_new hd.isNew) (hdraw.mono fun g q _ => given_of_kinds hb.kind)

theorem proceeds_build (hw : scope.tags tag) {k : Nat}
    (ht : tag = Tag.operation f.name (markers k args).1) (hl : (markers k args).2 ≤ p.literals)
    (hu : ∀ a ∈ args, Usable roster p a) (hb : Serves p.tree.editor f args b) :
    Proceeds roster scope (build tag b.plan) p fun h q => Given q h := by
  refine .of_viable fun hp => ?_
  rcases hp.lookup_cases tag with hr | ⟨g, l, hr, hg⟩
  · exact proceeds_build_new hw ⟨⟨k, ht, hl⟩, hr, hu⟩ hb
  · exact .congr (build_of_known hr) (.pure hg)

def Parts (tag : String) (p : Pass) (parts : Handle × Handle × Handle) : Prop :=
  p.results.lookup tag = some [parts.1, parts.2.1, parts.2.2] ∧
    ∀ h ∈ [parts.1, parts.2.1, parts.2.2], h.kind = .scalar

theorem proceeds_separate (hscope : ∀ tag, Tag.IsSeparation tag → scope.tags tag) {v : Operand}
    (hv : Usable roster p v) :
    Proceeds roster scope (separate v) p fun parts q =>
      Parts (Tag.operation "sepaxyz" (markers p.literals [v]).1) q parts := by
  intro hp
  generalize htag : Tag.operation "sepaxyz" (markers p.literals [v]).1 = tag
  have hnote : Moves roster scope p { p with literals := (markers p.literals [v]).2 } :=
    .note (fun _ => Nat.le_refl _) (literals_le_markers _ _)
  have hsep : Tag.IsSeparation tag := ⟨_, htag.symm⟩
  cases hr : p.results.lookup tag with
  | some handles =>
    obtain ⟨x, y, z, rfl, hkinds⟩ := (hp.entries _ (mem_of_lookup hr)).of_separation hsep
    rw [separate_of_known (htag ▸ hr)]
    refine ⟨.single hnote, fun parts hparts => ?_, fun _ hf => (by cases hf)⟩
    cases hparts
    exact ⟨hr, hkinds⟩
  | none =>
    rw [separate_of_new (htag ▸ hr), htag]
    obtain ⟨hruns, hparts, hfault⟩ := proceeds_wired
      (p := { p with literals := (markers p.literals [v]).2 }) (Sketch.valid_split hsep)
      (hscope tag hsep) hr rfl rfl
      (htag ▸ Tag.suits_operation (fun _ => rfl) (fun _ => rfl) fun hc =>
        absurd (htag ▸ hc) hsep.not_isCombination)
      (by simp [partTaps, Blueprint.separate, Blueprint.plan, NodeType.outputs])
      (fun hk => by
        obtain ⟨x, y, z, rfl⟩ :=
          List.length_eq_three.mp (by simpa [partTaps] using congrArg List.length hk)
        exact .parts htag.symm (by simpa [partTaps] using hk))
      (List.forall_mem_singleton.mpr (hv.gains (.move hnote)))
      (fun _ _ hs => by
        obtain ⟨g, ms, heq⟩ := hs.call
        exact not_isSeparation g ms (heq ▸ hsep)) (hp.move hnote)
    refine ⟨.head hnote hruns, fun parts h => ?_, hfault⟩
    obtain ⟨hlookup, hkinds⟩ := hparts parts h
    exact ⟨hlookup, by simpa [listed, partTaps] using hkinds⟩

theorem proceeds_constant (hscope : scope.Calls) (x : Numeric.Double) :
    Proceeds roster scope (constant x) p fun h q => Given q h := by
  refine .of_viable fun hp => ?_
  rcases hp.lookup_cases (Tag.constantMark ++ x.text) with hr | ⟨g, l, hr, hg⟩
  · have hletter : Tag.letter? (Tag.constantMark ++ x.text) = some 'C' := Tag.letter?_constant _
    have hdraw : Proceeds roster scope (Sketch.number x).draw p _ := proceeds_draw
      (Sketch.valid_number x)
      (hscope _ (by rw [Sketch.number, hletter]; decide)) hr rfl rfl
      (Tag.suits_of_letter (fun _ => rfl) (.inl hletter)) (List.forall_mem_singleton.mpr ⟨_, rfl⟩)
      (fun hk => by
        obtain ⟨g, rfl, hg⟩ := List.map_eq_singleton_iff.mp hk
        exact .constant rfl hg)
      fun {id p₁} hopened hp₁ _ => ⟨touch_works hp₁ hopened.index
        (.output (.float x.toSingle) (constantPosition p₁.tree p₁.constants)) rfl
        (fun _ => ⟨rfl, rfl⟩) (p₁.constants + 1), fun _ hf => by cases hf⟩
    exact .congr (constant_of_new hr) (hdraw.mono fun g q _ => given_of_kinds (by rfl))
  · exact .congr (constant_of_known hr) (.pure hg)

theorem proceeds_frame
    (hscope : ∀ tag, Tag.isTag tag = true → Tag.letter? tag = some 'G' → scope.tags tag)
    (tag label : String) (members : List NodeId) :
    Proceeds roster scope (frame tag label members) p fun _ _ => True := by
  refine .of_viable fun hp => ?_
  have hisTag := Tag.isTag_frame tag
  have hletter : Tag.letter? (Tag.frameMark ++ tag) = some 'G' := Tag.letter?_frame tag
  have hnew : Tag.frameMark ++ tag ∉ p.keys := by
    intro hm
    obtain ⟨e, he, hname⟩ := List.mem_map.mp hm
    have hother := (hp.entries e he).letter.2
    rw [hname] at hother
    exact hother hletter
  have hwithin : scope.tags (Tag.frameMark ++ tag) := hscope _ hisTag hletter
  obtain ⟨id, p₁, hrun, hopened, hwork⟩ : ∃ id q,
      nodeFor (Tag.frameMark ++ tag) .frame [] p = (.ok id, q) ∧
      Opened (Tag.frameMark ++ tag) .frame [] p id q ∧ Works roster (Tag.frameMark ++ tag) p q :=
    nodeFor_works hp hisTag rfl rfl (by simp)
      (Tag.suits_of_letter (fun _ => rfl) (.inr ⟨hletter, rfl⟩))
  have hmove := Moves.work hisTag hnew hwithin (hwork.trans
    (enframe_works (hp.work hisTag hnew hwork) hopened.index label members))
  exact .after hmove (show _ = (pure () : PassM Unit) _ from frame_run hrun) (.pure trivial)

end Nodes

section Serving

variable {editor : Editor}

theorem serves_native (hn : f.Nodal editor (args.map Operand.isVector)) :
    ∃ b, Blueprint.native Operand.isVector f args = some b ∧ Serves editor f args b := by
  obtain ⟨b, hb, hsuits⟩ := Blueprint.exists_native hn
  exact ⟨b, hb, .inl hb, hsuits.offered, hsuits.proper.kind,
    hsuits.proper.output.imp fun _ h => h.1, Blueprint.mem_of_native hb⟩

theorem serves_pair (hf : f = .min ∨ f = .max) (a b : Operand) :
    ∃ op, f.mathSetting? = some op ∧ Serves editor f [a, b] (.math op [a, b]) := by
  have serves : ∀ op, Serves editor f [a, b] (.math op [a, b]) := fun op =>
    ⟨.inr ⟨hf, op, rfl⟩, by cases editor <;> rfl, rfl, ⟨_, rfl⟩, fun e he => by
      obtain ⟨i, hi, rfl⟩ := List.mem_mapIdx.mp he
      exact List.getElem_mem hi⟩
  rcases hf with rfl | rfl <;> exact ⟨_, rfl, serves _⟩

end Serving

variable (hscope : scope.Calls)

include hscope

section Calls

/-- A construction goes on to the end under a new tag. -/
def Completes (roster : List Handle) (scope : Scope) (construct : Construction) (f : Function)
    (args : List Operand) (p : Pass) : Prop :=
  ∀ {q : Pass} {tag : String}, Due roster q tag f args → q.tree.editor = p.tree.editor →
    Proceeds roster scope (construct f tag args) q fun h q => Given q h

omit hscope in
theorem proceeds_applyBy {construct : Construction} (hu : ∀ a ∈ args, Usable roster p a)
    (hc : Completes roster scope construct f args p) :
    Proceeds roster scope (applyBy construct f args) p fun h q => Given q h := by
  refine .of_viable fun hp => ?_
  have hnote : Moves roster scope p { p with literals := (markers p.literals args).2 } :=
    .note (fun _ => Nat.le_refl _) (literals_le_markers _ _)
  rcases hp.lookup_cases (Tag.operation f.name (markers p.literals args).1) with
    hr | ⟨g, l, hr, hg⟩
  · have hdue : Due roster { p with literals := (markers p.literals args).2 }
        (Tag.operation f.name (markers p.literals args).1) f args :=
      ⟨⟨p.literals, rfl, Nat.le_refl _⟩, hr, fun a ha => (hu a ha).mono List.suffix_rfl⟩
    refine .after hnote (applyBy_of_new hr) (.bind (hc hdue rfl) fun h q hg hd => ?_)
    have hrecall : Moves roster scope q { q with
        results := (Tag.operation f.name (markers p.literals args).1, [h]) :: q.results } :=
      .again hd.mem
    exact .after hrecall rfl (.pure (hd.mono (.move hrecall)))
  · exact .after hnote (applyBy_of_known hr) (.pure (hg.mono (.move hnote)))

theorem proceeds_native (hn : f.Nodal p.tree.editor (args.map Operand.isVector))
    (hv : f.signature.variadic = false) : Completes roster scope native f args p := by
  intro q tag hd he
  obtain ⟨b, hb, hserves⟩ := serves_native hn
  rw [native_eq_build hv, hb]
  obtain ⟨ms, hms⟩ := hd.tagged
  exact proceeds_build_new (hscope.operation hms) hd (he ▸ hserves)

theorem proceeds_mathNode {k : Nat} (hf : f = .min ∨ f = .max) {a b : Operand}
    (ht : tag = Tag.operation f.name (markers k [a, b]).1) (hl : (markers k [a, b]).2 ≤ p.literals)
    (hu : ∀ o ∈ [a, b], Usable roster p o) :
    Proceeds roster scope (mathNode f tag [a, b]) p fun h q => Given q h := by
  obtain ⟨op, hop, hserves⟩ : ∃ op, f.mathSetting? = some op ∧
      Serves p.tree.editor f [a, b] (.math op [a, b]) := serves_pair hf a b
  rw [mathNode_eq, hop]
  exact proceeds_build (hscope.operation ht) ht hl hu hserves

/-- The steps of a chain. The last operand is the first one, or a step. -/
theorem proceeds_chainSteps (hf : f = .min ∨ f = .max) {first : Operand}
    (hfirst : Usable roster p first) (hu : ∀ a ∈ args, Usable roster p a) :
    Proceeds roster scope (chainSteps f first args) p fun r q =>
      (args = [] ∧ r.1 = first) ∨ ∃ h, r.1 = .handle h ∧ Given q h := by
  induction args generalizing p first with
  | nil => exact .pure (.inl ⟨rfl, rfl⟩)
  | cons arg rest ih =>
    have hpair : ∀ o ∈ [first, arg], Usable roster p o := by
      simpa using ⟨hfirst, hu arg List.mem_cons_self⟩
    have hmath : Proceeds roster scope
        (mathNode f (Tag.operation f.name (markers p.literals [first, arg]).1) [first, arg])
        { p with literals := (markers p.literals [first, arg]).2 } fun h q => Given q h :=
      proceeds_mathNode hscope hf rfl (Nat.le_refl _) fun o ho =>
        (hpair o ho).mono List.suffix_rfl
    refine .tagged _ _ (hmath.bind fun step q hg hstep => ?_)
    refine (ih hstep.usable fun a ha => (hu a (List.mem_cons_of_mem _ ha)).mono hg.results).bind
      fun r q' hg' hr => .pure (.inr ?_)
    rcases hr with ⟨-, hr⟩ | hr
    · exact ⟨step, hr, hstep.mono hg'⟩
    · exact hr

theorem proceeds_chain (hf : f = .min ∨ f = .max) (ha : f.signature.fault? args.length = none) :
    Completes roster scope native f args p := by
  intro q tag hd _
  have hchain : native f tag args = chain f tag args := by rcases hf with rfl | rfl <;> rfl
  obtain ⟨k, htag, hl⟩ := hd.name
  rw [hchain]
  match args, ha, htag, hl, hd with
  | [], ha, _, _, _ | [_], ha, _, _, _ => rcases hf with rfl | rfl <;> cases ha
  | [a, b], _, htag, hl, hd =>
    exact proceeds_mathNode hscope hf htag hl hd.usable
  | a :: b :: c :: rest, _, htag, _, hd =>
    refine (proceeds_chainSteps hscope hf (hd.usable a List.mem_cons_self) fun o ho =>
      hd.usable o (List.mem_cons_of_mem _ ho)).bind fun r q' _ hr => ?_
    refine (proceeds_frame hscope.splices.frame _ _ _).bind fun _ q'' hg _ => ?_
    obtain ⟨h, hh, hgiven⟩ := hr.resolve_left fun hc => by cases hc.1
    obtain ⟨last, nodes⟩ := r
    subst hh
    exact .pure (hgiven.mono hg)

theorem proceeds_bound (hf : f = .min ∨ f = .max) {a b : Operand} (ha : Usable roster p a)
    (hb : Usable roster p b) :
    Proceeds roster scope (applyBy native f [a, b]) p fun h q => Given q h :=
  proceeds_applyBy (by simpa using ⟨ha, hb⟩)
    (proceeds_chain hscope hf (by rcases hf with rfl | rfl <;> rfl))

theorem proceeds_emulatedClamp {v low high : Operand} (hv : Usable roster p v)
    (hl : Usable roster p low) (hh : Usable roster p high) :
    Proceeds roster scope (emulatedClamp f tag v low high) p fun h q => Given q h := by
  have framed : ∀ {q : Pass} {label : String} {members : List NodeId} {result : Handle},
      Given q result → Proceeds roster scope (do frame tag label members; return result) q
        fun h q => Given q h := fun hr =>
    (proceeds_frame hscope.splices.frame _ _ _).bind fun _ _ hg _ => .pure (hr.mono hg)
  unfold emulatedClamp
  split
  · refine (proceeds_bound hscope (.inl rfl) hl hh).bind fun lower p₁ hg₁ hlower => ?_
    refine (proceeds_bound hscope (.inr rfl) (hl.gains hg₁) (hh.gains hg₁)).bind
      fun upper p₂ hg₂ hupper => ?_
    refine (proceeds_bound hscope (.inl rfl) (hv.gains (hg₁.trans hg₂)) hupper.usable).bind
      fun capped p₃ hg₃ hcapped => ?_
    exact (proceeds_bound hscope (.inr rfl) (hlower.mono (hg₂.trans hg₃)).usable
      hcapped.usable).bind fun result p₄ _ hresult => framed hresult
  · refine (proceeds_bound hscope (.inl rfl) hv hh).bind fun capped p₁ hg₁ hcapped => ?_
    exact (proceeds_bound hscope (.inr rfl) (hl.gains hg₁) hcapped.usable).bind
      fun result p₂ _ hresult => framed hresult

theorem proceeds_scalarForm (hd : f.Direct p.tree.editor (args.map Operand.isVector)) :
    Completes roster scope scalarForm f args p := by
  intro q tag hdue he
  have harity := hd.arity
  rw [List.length_map] at harity
  cases hem : Lowered.emulates q.tree.editor f with
  | false =>
    refine .congr (scalarForm_run_of_not hem args) ?_
    cases hv : f.signature.variadic with
    | true => exact proceeds_chain hscope (Function.variadic_iff.mp hv) harity hdue he
    | false =>
      refine proceeds_native hscope (hd.nodal hv fun hc => ?_) hv hdue he
      cases ho : p.tree.editor.offers .clamp with
      | true => rfl
      | false =>
        rw [he, Lowered.emulates_iff.mpr ⟨hc, ho⟩] at hem
        cases hem
  | true =>
    obtain ⟨hf, -⟩ := Lowered.emulates_iff.mp hem
    match args, harity, hdue with
    | [], harity, _ => rcases hf with rfl | rfl <;> cases harity
    | v :: bounds, _, hdue =>
      have bound : ∀ (i : Nat) (x : Numeric.Single),
          Usable roster q (bounds[i]?.getD (.scalar x)) := by
        intro i x
        cases hi : bounds[i]? with
        | none => exact usable_scalar x
        | some o => exact hdue.usable o (List.mem_cons_of_mem _ (List.mem_of_getElem? hi))
      refine .congr (scalarForm_run_of_emulates hem v bounds) ?_
      exact proceeds_emulatedClamp hscope (hdue.usable v List.mem_cons_self) (bound 0 0) (bound 1 1)

end Calls

section Components

structure Plain (roster : List Handle) (p : Pass) (o : Operand) : Prop
    extends Usable roster p o where
  single : o.isVector = false

omit hscope in
theorem Plain.gains {o : Operand} (h : Plain roster p o) (hg : Gains p q) : Plain roster q o :=
  { h.toUsable.gains hg with single := h.single }

omit hscope in
theorem Parts.plain {parts : Handle × Handle × Handle} (h : Parts tag p parts) :
    ∀ g ∈ [parts.1, parts.2.1, parts.2.2], Plain roster p (.handle g) := by
  intro g hg
  have hkind := h.2 g hg
  refine ⟨.of_handle (.inr ⟨_, mem_of_lookup h.1, hg⟩) (by rw [hkind]; rfl), ?_⟩
  simp [Operand.isVector, Operand.kind, hkind]

theorem proceeds_axes {arg : Operand} (hu : Usable roster p arg) :
    Proceeds roster scope (axes arg) p fun r q =>
      ∀ o ∈ [r.1.1, r.1.2.1, r.1.2.2], Plain roster q o := by
  have scalar : ∀ x : Numeric.Single, Plain roster p (.scalar x) :=
    fun x => { usable_scalar x with single := rfl }
  unfold axes
  split
  · exact .pure (by simpa using ⟨scalar _, scalar _, scalar _⟩)
  · cases hv : arg.isVector with
    | true =>
      refine (proceeds_separate hscope.splices.separate hu).bind fun parts q _ hparts => .pure ?_
      simpa using hparts.plain
    | false => exact .pure (by simpa using ({ hu with single := hv } : Plain roster p arg))

theorem proceeds_axesAll (hu : ∀ a ∈ args, Usable roster p a) :
    Proceeds roster scope (axesAll args) p fun r q => r.1.length = args.length ∧
      ∀ s ∈ r.1, ∀ o ∈ [s.1, s.2.1, s.2.2], Plain roster q o := by
  induction args generalizing p with
  | nil => exact .pure ⟨rfl, by simp⟩
  | cons arg rest ih =>
    refine (proceeds_axes hscope (hu arg List.mem_cons_self)).bind fun r p₁ hg₁ hr => ?_
    refine (ih fun a ha => (hu a (List.mem_cons_of_mem _ ha)).gains hg₁).bind
      fun rs p₂ hg₂ hrs => .pure ⟨by simp [hrs.1], ?_⟩
    intro s hs o ho
    rcases List.mem_cons.mp hs with rfl | hs
    · exact (hr o ho).gains hg₂
    · exact hrs.2 s hs o ho

omit hscope in
theorem proceeds_combine (hscope : ∀ tag, Tag.IsCombination tag → scope.tags tag) {x y z : Operand}
    (hu : ∀ o ∈ [x, y, z], Usable roster p o) :
    Proceeds roster scope (combine x y z) p fun h q => Given q h := by
  refine .tagged _ _ ?_
  have hserves : Serves p.tree.editor .combixyz [x, y, z] (.combine [x, y, z]) :=
    ⟨.inl rfl, by cases p.tree.editor <;> rfl, rfl, ⟨_, rfl⟩, fun e he => by
      obtain ⟨i, hi, rfl⟩ := List.mem_mapIdx.mp he
      exact List.getElem_mem hi⟩
  generalize htag : Tag.operation Function.combixyz.name (markers p.literals [x, y, z]).1 = tag
  change Proceeds roster scope (build tag (Blueprint.combine [x, y, z]).plan) _ _
  exact proceeds_build (hscope tag ⟨_, htag.symm⟩) htag.symm (Nat.le_refl _)
    (fun o ho => (hu o ho).mono List.suffix_rfl) hserves

theorem proceeds_perComponent (hc : f.Callable p.tree.editor (args.map Operand.isVector))
    (hs : f.composed = false) (hu : ∀ a ∈ args, Usable roster p a) :
    Proceeds roster scope (perComponent f tag args) p fun h q => Given q h := by
  refine (proceeds_axesAll hscope hu).bind fun r p₁ hg₁ hr => ?_
  -- each component of the arguments is a list of single numbers
  have along : ∀ {q : Pass} (axis : Operand × Operand × Operand → Operand), Gains p₁ q →
      (∀ s ∈ r.1, axis s ∈ [s.1, s.2.1, s.2.2]) →
      Proceeds roster scope (applyBy scalarForm f (r.1.map axis)) q fun h q => Given q h := by
    intro q axis hg haxis
    have hplain : ∀ o ∈ r.1.map axis, Plain roster q o := by
      intro o ho
      obtain ⟨s, hs, rfl⟩ := List.mem_map.mp ho
      exact (hr.2 s hs _ (haxis s hs)).gains hg
    refine proceeds_applyBy (fun o ho => (hplain o ho).toUsable) (proceeds_scalarForm hscope ?_)
    rw [hg.editor, hg₁.editor]
    refine hc.direct_of_scalars hs (by simp [hr.1]) ?_
    rw [List.any_map, List.any_eq_false]
    intro o ho
    simp [(hplain o ho).single]
  refine (along (·.1) (.refl p₁) (by simp)).bind fun x p₂ hg₂ hx => ?_
  refine (along (·.2.1) hg₂ (by simp)).bind fun y p₃ hg₃ hy => ?_
  refine (along (·.2.2) (hg₂.trans hg₃) (by simp)).bind fun z p₄ hg₄ hz => ?_
  refine (proceeds_combine hscope.splices.combine ?_).bind fun combined p₅ hg₅ hcombined => ?_
  · simpa using ⟨(hx.mono (hg₃.trans hg₄)).usable, (hy.mono hg₄).usable, hz.usable⟩
  · exact (proceeds_frame hscope.splices.frame _ _ _).bind fun _ _ hg _ => .pure (hcombined.mono hg)

theorem proceeds_numericForm (hc : f.Callable p.tree.editor (args.map Operand.isVector))
    (hs : f.composed = false) : Completes roster scope numericForm f args p := by
  intro q tag hdue he
  have hany : (args.map Operand.isVector).any id = args.any Operand.isVector := List.any_map
  refine .ofTree ?_
  rw [← he] at hc
  cases hsplit : isSplit q.tree.editor f args with
  | true =>
    rw [if_pos rfl]
    exact proceeds_perComponent hscope hc hs hdue.usable
  | false =>
    rw [if_neg (by simp)]
    refine proceeds_scalarForm hscope (hc.direct hs ?_) hdue rfl
    rw [hany]
    exact hsplit

theorem proceeds_part (hf : f = .div ∨ f = .pow ∨ f = .sub ∨ f = .floor)
    (ha : f.signature.fault? args.length = none) (hu : ∀ a ∈ args, Usable roster p a) :
    Proceeds roster scope (applyBy numericForm f args) p fun h q => Given q h := by
  refine proceeds_applyBy hu (proceeds_numericForm hscope ?_ ?_)
  · rw [← List.length_map (f := Operand.isVector)] at ha
    refine Function.callable_of_free ?_ ha ?_ ?_ <;> rcases hf with rfl | rfl | rfl | rfl <;> rfl
  · rcases hf with rfl | rfl | rfl | rfl <;> rfl

theorem proceeds_construct (hc : f.Callable p.tree.editor (args.map Operand.isVector)) :
    Completes roster scope construct f args p := by
  intro q tag hdue he
  have harity := hc.arity
  rw [List.length_map] at harity
  have framed : ∀ {q : Pass} {label : String} {members : List NodeId} {result : Handle},
      Given q result → Proceeds roster scope (do frame tag label members; return result) q
        fun h q => Given q h := fun hr =>
    (proceeds_frame hscope.splices.frame _ _ _).bind fun _ _ hg _ => .pure (hr.mono hg)
  cases hs : f.composed with
  | false =>
    have hsimple : construct f tag args = numericForm f tag args := by
      cases f <;> first | rfl | cases hs
    rw [hsimple]
    exact proceeds_numericForm hscope hc hs hdue he
  | true =>
    cases f with
    | nroot =>
      obtain ⟨a, n, rfl⟩ := List.length_eq_two.mp (Signature.length_of_fixed harity)
      have hu := hdue.usable
      simp only [List.forall_mem_cons] at hu
      refine (proceeds_part hscope (.inl rfl) rfl (by simpa using ⟨usable_scalar 1, hu.2.1⟩)).bind
        fun exponent q₁ hg₁ hexponent => ?_
      refine (proceeds_part hscope (.inr (.inl rfl)) rfl
        (by simpa using ⟨hu.1.gains hg₁, hexponent.usable⟩)).bind fun root q₂ _ hroot => ?_
      exact framed hroot
    | neg =>
      obtain ⟨a, rfl⟩ := List.length_eq_one_iff.mp (Signature.length_of_fixed harity)
      refine (proceeds_part hscope (.inr (.inr (.inl rfl))) rfl
        (by simpa using ⟨usable_scalar 0, hdue.usable a (by simp)⟩)).bind fun negated q₁ _ hn => ?_
      exact framed hn
    | floordiv =>
      refine (proceeds_part hscope (.inl rfl) harity hdue.usable).bind
        fun quotient q₁ _ hquotient => ?_
      refine (proceeds_part hscope (.inr (.inr (.inr rfl))) rfl
        (by simpa using hquotient.usable)).bind fun floored q₂ _ hfloored => ?_
      exact framed hfloored
    | _ => cases hs

omit hscope in
/-- What the checks of a call ask for. -/
theorem callable_of_callFault? (h : callFault? editor f args = none) :
    f.Callable editor (args.map Operand.isVector) ∧ ∀ a ∈ args, a.kind.isNumeric = true := by
  have harity := arity_of_callFault? h
  unfold callFault? at h
  rw [harity] at h
  dsimp only at h
  split at h
  · cases h
  next hoffered =>
  unfold kindFault? at h
  split at h
  · cases h
  next hkinds =>
  have hnumeric : ∀ a ∈ args, a.kind.isNumeric = true := by
    intro a ha
    by_contra hc
    exact hkinds (List.any_eq_true.mpr ⟨a, ha, by simpa using hc⟩)
  refine ⟨⟨by simpa using hoffered, by rwa [List.length_map], fun i hi => ?_⟩, hnumeric⟩
  have hmisfit : vectorMisfit? f args = none := Option.map_eq_none_iff.mp h
  rw [List.getElem?_map] at hi
  obtain ⟨a, ha, hv⟩ := Option.map_eq_some_iff.mp hi
  have hlt : i < args.length := (List.getElem?_eq_some_iff.mp ha).1
  have hnone := List.find?_eq_none.mp hmisfit i (List.mem_range.mpr hlt)
  rw [ha] at hnone
  simp only [Option.any_some, hv, Bool.and_true, Bool.not_eq_true, Bool.or_eq_false_iff] at hnone
  exact hnone

theorem proceeds_apply (hn : callFault? p.tree.editor f args = none)
    (hk : ∀ g, .handle g ∈ args → Known roster p g) :
    Proceeds roster scope (apply f args) p fun h q => Given q h := by
  obtain ⟨hc, hnumeric⟩ := callable_of_callFault? hn
  refine proceeds_applyBy (fun a ha => ⟨fun g hg => hk g (hg ▸ ha), hnumeric a ha⟩) ?_
  exact proceeds_construct hscope hc

end Components

end Pass

end FormulaGraph
