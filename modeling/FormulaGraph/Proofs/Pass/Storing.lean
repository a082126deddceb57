import FormulaGraph.Proofs.Pass.Bystanders
import FormulaGraph.Proofs.Pass.Progress

/-!
What a pass does at the boundary, as moves. A boundary socket is made or
retyped; a literal is stored on it, or its numbers are put together by a node
that feeds it.
-/

namespace FormulaGraph

open Run Relation

variable {inputs : List (Nat × Operand)} {e : String × NodeType} {id : NodeId} {kind : Kind}

namespace Tree

variable {t : Tree} {x : SocketId}

theorem Hosted.not_mem_inputIds (h : t.Hosted) {r : SocketRef} {n : Node}
    (hs : t.sourceOf? x = some r) (hn : t.node? r.node = some n) : x ∉ n.inputIds := by
  intro hx
  obtain ⟨l, hl, rfl⟩ := Option.map_eq_some_iff.mp hs
  have hmem := List.mem_of_find?_eq_some hl
  have htarget : l.target.socket = x := by simpa using List.find?_some hl
  obtain ⟨m, hm, hxm⟩ := (h.sane.ends l hmem).2
  have howner := h.sane.owner _ _ n m x hn hm (List.mem_append_left _ hx)
    (List.mem_append_left _ (htarget ▸ hxm))
  exact h.acyclic _ (.single ⟨l, hmem, rfl, howner.symm⟩)

theorem FedAll.congr {t' : Tree} (h : t.FedAll id inputs) (hn : t'.node? id = t.node? id)
    (hf : ∀ n y, t.node? id = some n → y ∈ n.inputIds → t'.feedOf? y = t.feedOf? y) :
    t'.FedAll id inputs := by
  intro slot operand hm
  obtain ⟨n, input, hnode, hinput, hfed⟩ := h slot operand hm
  exact ⟨n, input, hn.trans hnode, hinput, hfed.congr (hf n _ hnode
    (List.mem_map_of_mem (List.mem_of_getElem? hinput)))⟩

theorem FedAll.modifyNode {f : Node → Node} (h : t.FedAll id inputs) (hid : ∀ n, (f n).id = n.id)
    (hf : ∀ n, (f n).inputs = n.inputs) :
    (t.modifyNode id f).FedAll id inputs := by
  intro slot operand hm
  obtain ⟨n, input, hn, hinput, hfed⟩ := h slot operand hm
  refine ⟨f n, input, ?_, (hf n).symm ▸ hinput, hfed.congr rfl⟩
  rw [node?_modifyNode hid, hn]
  simp

end Tree

namespace Pass

variable {roster : List Handle} {scope : Scope} {p q : Pass} {side : Side} {name : String}
  {type : SocketType} {x : SocketId} {s : Socket} {l : Literal}
  {tag : String} {node : NodeType} {numbers : List Numeric.Single}

/-- A boundary socket that is refused leaves no trace. -/
theorem behaves_ask (hw : scope.asked side name type) :
    Behaves roster scope (edit .boundary (Tree.socketFor side name type)) p
      (fun x q => q = { p with tree := (Tree.socketFor side name type p.tree).2 } ∧
        ∃ s, q.tree.boundarySocket? x = some s ∧ (s.side = side ∧ s.name = name) ∧
          p.tree.editor.adjust? type = some s.type)
      fun _ q => q = p := by
  refine .of_viable fun hp => ?_
  have hmove : Moves roster scope p
      { p with tree := (Tree.socketFor side name type p.tree).2 } := .ask hw
  have hadmits := socketFor_admits hp.hosted.sane hp.hosted.grouped side name type
  intro hp
  rw [edit_run]
  cases ha : p.tree.editor.adjust? type with
  | none =>
    rw [ha] at hadmits
    dsimp only at hadmits
    rw [hadmits]
    exact ⟨.refl, fun _ hx => (by cases hx), fun _ _ => rfl⟩
  | some wanted =>
    rw [ha] at hadmits
    obtain ⟨x, t, hrun, hadmits⟩ := hadmits
    rw [hrun] at hmove ⊢
    refine ⟨.single hmove, fun y hy => ?_, fun _ hf => (by cases hf)⟩
    cases hy
    obtain ⟨s, hs, rfl, htype⟩ := hadmits.socket
    exact ⟨rfl, s, Tree.boundarySocket?_of_mem (hp.move hmove).hosted.grouped.distinct
      (Tree.mem_of_boundaryNamed? hs), Tree.of_boundaryNamed? hs, by rw [htype]⟩

theorem behaves_newHandle (kind : Kind) (socket : SocketRef) (boundary : Option String)
    {E : Fault → Pass → Prop} :
    Behaves roster scope (newHandle kind socket boundary) p
      (fun h q => h = ⟨kind, p.counts.get kind, socket, boundary⟩ ∧
        q = { p with counts := p.counts.bump kind }) E :=
  .after (.note (le_bump _ kind) (Nat.le_refl _))
    (show _ = (Pure.pure ⟨kind, p.counts.get kind, socket, boundary⟩ : PassM Handle) _ from rfl)
    (.pure ⟨rfl, rfl⟩)

theorem proceeds_wireAll (ht : Tag.isTag tag = true) (hnew : tag ∉ p.keys)
    (hw : scope.tags tag) (hi : p.index.lookup tag = some id) (hslots : (inputs.map Prod.fst).Nodup)
    (hin : ∀ e ∈ inputs, Usable roster p e.2) (hcall : ¬Tag.IsCall tag) :
    Proceeds roster scope (wireAll id inputs) p fun _ q => (∃ t, q = { p with tree := t }) ∧
      p.tree.Wires (· ∈ inputs.map Prod.fst) id q.tree ∧ q.tree.FedAll id inputs := by
  intro hp
  obtain ⟨hwires, -, hfault⟩ := wireAll_works hp hnew hi hin fun _ _ _ _ hs => hcall hs.call
  refine ⟨.single (.work ht hnew hw hwires), fun u hu => ?_, hfault⟩
  obtain ⟨t, heq, -, hwired, hfed⟩ := wireAll_spec hp.hosted.sane hslots
    (show wireAll id inputs p = (.ok u, (wireAll id inputs p).2) from Prod.ext hu rfl)
  rw [heq]
  exact ⟨⟨t, rfl⟩, hwired, hfed⟩

def numberSlots (numbers : List Numeric.Single) : List (Nat × Operand) :=
  numbers.mapIdx fun slot x => (slot, .scalar x)

theorem numberSlots_eq (numbers : List Numeric.Single) :
    numberSlots numbers = slotsFrom 0 (numbers.map Operand.scalar) := by
  refine List.ext_getElem? fun i => ?_
  cases h : numbers[i]? <;> simp [numberSlots, slotsFrom, h]

structure Assembled (tag : String) (type : NodeType) (numbers : List Numeric.Single) (id : NodeId)
    (q : Pass) : Prop where
  index : q.index.lookup tag = some id
  node : ∃ n, q.tree.node? id = some n ∧ n.name = tag ∧ n.type = type
  fed : q.tree.FedAll id (numberSlots numbers)

theorem Assembled.congr
    (h : Assembled tag node numbers id p) (hi : q.index = p.index)
    (hn : q.tree.node? id = p.tree.node? id)
    (hf : ∀ n y, p.tree.node? id = some n → y ∈ n.inputIds → q.tree.feedOf? y = p.tree.feedOf? y) :
    Assembled tag node numbers id q := by
  obtain ⟨n, hnode, hname⟩ := h.node
  exact ⟨hi ▸ h.index, ⟨n, hn.trans hnode, hname⟩, h.fed.congr hn hf⟩

theorem Viable.assembler_not_mem (hp : p.Viable) (word : String) (place : Nat) :
    Tag.assembler word side place ∉ p.keys := by
  intro hm
  obtain ⟨e, he, hname⟩ := List.mem_map.mp hm
  have hletter := (hp.entries e he).letter.1
  rw [hname] at hletter
  exact hletter (Tag.letter?_assembler word side place)

theorem assembly?_cases {word : String}
    (h : assembly? l type = some (word, node, numbers)) :
    type.hasDefault = false ∧ (word, node) ∈ Tag.assemblies := by
  unfold assembly? at h
  split at h <;> cases h <;> exact ⟨rfl, by decide⟩

theorem offers_assembly {editor : Editor} (he : e ∈ Tag.assemblies) (ht : type ∈ editor.socketTypes)
    (hd : type.hasDefault = false) : editor.offers e.2 = true := by
  have hgeometry : editor = .geometry := by
    revert ht hd
    cases editor <;> cases type <;> decide
  subst hgeometry
  revert e
  decide

theorem exists_output_assembly (he : e ∈ Tag.assemblies) : ∃ spec, e.2.outputs[0]? = some spec := by
  rw [← Option.isSome_iff_exists]
  revert e
  decide

theorem isBuilt_assembly (he : e ∈ Tag.assemblies) : e.2.isBuilt = true := by
  revert e
  decide

def Scope.Assembles (scope : Scope) (p : Pass) (side : Side) (x : SocketId) (l : Literal) : Prop :=
  ∀ s word type numbers place, p.tree.boundarySocket? x = some s →
    assembly? l s.type = some (word, type, numbers) → p.tree.boundaryIndex? x = some place →
    scope.tags (Tag.assembler word side place)

/-- The numbers of a literal are put together by a node. -/
theorem behaves_assembler (hs : p.tree.boundarySocket? x = some s)
    (htags : scope.Assembles p side x l) :
    Behaves roster scope (assembler side s l) p
      (fun id q => ∃ word type numbers place, assembly? l s.type = some (word, type, numbers) ∧
        p.tree.boundaryIndex? x = some place ∧
        Assembled (Tag.assembler word side place) type numbers id q ∧
        q.tree.boundary = p.tree.boundary)
      fun fault q => fault.rejects = true → q = p ∧ fault = .literalOnBoundary l.kind s.type := by
  obtain ⟨hmem, rfl⟩ := Tree.mem_of_boundarySocket? hs
  unfold assembler
  cases ha : assembly? l s.type with
  | none => exact .throw fun _ => ⟨rfl, rfl⟩
  | some r =>
    obtain ⟨word, type, numbers⟩ := r
    dsimp only
    obtain ⟨place, hplace⟩ := Tree.exists_boundaryIndex? hs
    obtain ⟨hdefault, hword⟩ := assembly?_cases ha
    refine .ofTree (.of_viable fun hp => ?_)
    rw [hplace, Option.getD_some]
    change Behaves roster scope (nodeFor (Tag.assembler word side place) type [] >>= _) p _ _
    have hisTag := Tag.isTag_assembler word side place
    have hwithin := htags s word type numbers place hs ha hplace
    have hnew : Tag.assembler word side place ∉ p.keys := hp.assembler_not_mem word place
    obtain ⟨id, p₁, hrun, hopened, hwork⟩ : ∃ id q,
        nodeFor (Tag.assembler word side place) type [] p = (.ok id, q) ∧
        Opened (Tag.assembler word side place) type [] p id q ∧
        Works roster (Tag.assembler word side place) p q :=
      nodeFor_works hp hisTag (isBuilt_assembly hword)
        (offers_assembly hword (hp.hosted.sockets s hmem).type hdefault) (by simp)
        (Tag.suits_assembler hword side place)
    refine .after (.work hisTag hnew hwithin hwork) (bind_of_ok hrun) (.of_viable fun hp₁ => ?_)
    have hwire : Proceeds roster scope (wireAll id (numberSlots numbers)) p₁ _ :=
      proceeds_wireAll hisTag (hp₁.assembler_not_mem word place) hwithin hopened.index
        (by rw [numberSlots_eq]; exact nodup_slotsFrom _ _) (fun e he => by
          rw [numberSlots_eq] at he
          obtain ⟨x, -, hx⟩ := List.mem_map.mp (mem_of_mem_slotsFrom he)
          rw [← hx]
          exact usable_scalar x) fun hc => by
          have hletter := Tag.letter?_assembler word side place
          obtain ⟨f, ms, heq⟩ := hc
          rw [heq, Tag.letter?_operation] at hletter
          cases hletter
    refine (hwire.weaken ?_).bind fun _ q _ hq => .of_viable fun hp₂ => ?_
    · intro fault q hf hr
      rw [hf] at hr
      cases hr
    obtain ⟨⟨t, rfl⟩, hwired, hfed⟩ := hq
    obtain ⟨n, hn, hname, htype, -⟩ := hopened.node
    obtain ⟨n₂, hn₂, -, hname₂, htype₂⟩ := hwired.own n hn
    let touch := Touch.move (assemblerPosition t side place)
    have hlast : (t.modifyNode id touch.apply).node? id = some (touch.apply n₂) := by
      rw [Tree.node?_modifyNode (f := touch.apply) fun _ => rfl]
      dsimp only at hn₂
      simp [hn₂]
    refine .after (.work hisTag (hp₂.assembler_not_mem word place) hwithin
      (touch_works hp₂ hopened.index touch rfl (fun _ => ⟨rfl, rfl⟩) p₁.constants))
      rfl (.pure ⟨word, type, numbers, place, rfl, rfl, ⟨hopened.index, ?_, ?_⟩, ?_⟩)
    · exact ⟨_, hlast, hname₂.trans hname, htype₂.trans htype⟩
    · exact hfed.modifyNode (fun _ => rfl) fun _ => rfl
    · exact hwired.boundary.trans hopened.boundary

inductive Stored (l : Literal) (x : SocketId) (q : Pass) : Prop where
  | default {s : Socket} {value : Value} (found : q.tree.boundarySocket? x = some s)
      (has : s.type.hasDefault = true) (value_eq : l.toValue? = some value)
      (unfed : q.tree.feedOf? x = none) (default_eq : s.default = value.convert s.type)
  | assembled {s : Socket} {word : String} {type : NodeType} {numbers : List Numeric.Single}
      {place : Nat} {id : NodeId} {n : Node} {out : Socket}
      (found : q.tree.boundarySocket? x = some s)
      (assembly : assembly? l s.type = some (word, type, numbers))
      (place_eq : q.tree.boundaryIndex? x = some place)
      (assembled : Assembled (Tag.assembler word .output place) type numbers id q)
      (node : q.tree.node? id = some n) (output : n.outputs[0]? = some out)
      (source : q.tree.sourceOf? x = some ⟨id, out.id⟩)

theorem proceeds_store {value : Value} (hs : p.tree.boundarySocket? x = some s)
    (hw : (s.side = .input ∧ ∃ type, scope.asked .input s.name type) ∨
      scope.assigned ⟨.groupOutput, x⟩) :
    Proceeds roster scope (discard (edit .boundary (Tree.setSocketDefault x value))) p fun _ q =>
      q.tree.links = p.tree.links ∧
      q.tree.boundarySocket? x = some (Tree.redefault (value.convert s.type) s) := by
  obtain ⟨b, t, hrun, hlinks, -, hfound, -⟩ := Tree.setSocketDefault_spec hs value
  have hmove : Moves roster scope p { p with tree := t } := by
    have hstore : Moves roster scope p
        { p with tree := (Tree.setSocketDefault x value p.tree).2 } := .store hs hw
    rwa [hrun] at hstore
  have hstored : edit .boundary (Tree.setSocketDefault x value) p =
      (.ok b, { p with tree := t }) := by
    rw [edit_run, hrun]
    rfl
  exact .after hmove (show _ = (Pure.pure () : PassM Unit) _ from discard_of_ok hstored)
    (.pure ⟨hlinks, hfound⟩)

/-- Once the value of an output is assembled, it is linked. -/
theorem proceeds_feed {source target : SocketRef} (hw : scope.assigned target)
    (hsource : Supplies roster p source target) :
    Proceeds roster scope (do
      if (p.tree.feedOf? target.socket).map (·.source) ≠ some source then
        edit .link (Tree.reconnect source target)) p fun _ q =>
      q.index = p.index ∧ q.tree.nodes = p.tree.nodes ∧ q.tree.boundary = p.tree.boundary ∧
      q.tree.sourceOf? target.socket = some source ∧
      (∀ y, y ≠ target.socket → q.tree.feedOf? y = p.tree.feedOf? y) := by
  by_cases hf : (p.tree.feedOf? target.socket).map (·.source) = some source
  · rw [if_neg (not_not.mpr hf)]
    exact .pure ⟨rfl, rfl, rfl, hf, fun _ _ => rfl⟩
  · rw [if_pos hf]
    have hmove : Moves roster scope p { p with tree := (Tree.reconnect source target p.tree).2 } :=
      .feed hw hsource
    intro _
    rw [edit_run]
    rcases Tree.reconnect_outcome source target p.tree with ⟨fault, t, heq, -⟩ | ⟨-, heq⟩
    · rw [heq] at hmove ⊢
      refine ⟨.single hmove, fun _ ha => (by cases ha), fun f hf => ?_⟩
      cases hf
      exact Fault.not_rejects_link fault
    · rw [heq] at hmove ⊢
      refine ⟨.single hmove, fun _ _ => ⟨rfl, rfl, rfl, ?_, fun y hy => ?_⟩,
        fun _ hf => (by cases hf)⟩
      · dsimp only
        rw [Tree.sourceOf?, Tree.feedOf?_reconnected, if_pos rfl]
        rfl
      · dsimp only
        rw [Tree.feedOf?_reconnected, if_neg hy]

theorem behaves_storeLiteral
    (hin : side = .input → ∀ s, p.tree.boundarySocket? x = some s →
      s.side = .input ∧ ∃ type, scope.asked .input s.name type)
    (hout : side = .output → scope.assigned ⟨.groupOutput, x⟩)
    (htags : scope.Assembles p side x l) :
    Behaves roster scope (storeLiteral side x l) p (fun _ q => side = .output → Stored l x q)
      fun fault q => fault.rejects = true → q = p ∧
        ∃ type, fault = .literalOnBoundary l.kind type := by
  have tolerate : ∀ (fault : Fault) (q : Pass), fault.rejects = false → fault.rejects = true →
      q = p ∧ ∃ type, fault = .literalOnBoundary l.kind type := by
    intro fault q hf hr
    rw [hf] at hr
    cases hr
  unfold storeLiteral
  refine .ofTree ?_
  cases hs : p.tree.boundarySocket? x with
  | none => exact .throw fun hr => (by cases hr)
  | some s =>
    dsimp only
    cases hd : s.type.hasDefault with
    | true =>
      rw [if_pos rfl]
      cases hv : l.toValue? with
      | none => exact .throw fun _ => ⟨rfl, s.type, rfl⟩
      | some value =>
        cases side with
        | input =>
          exact ((proceeds_store hs (.inl (hin rfl s hs))).weaken tolerate).mono
            fun _ _ _ _ hside => (by cases hside)
        | output =>
          have hrelease : Moves roster scope p { p with tree := p.tree.disconnect x } :=
            .release hs (hout rfl)
          refine .after hrelease rfl (((proceeds_store (p := { p with tree := p.tree.disconnect x })
            hs (.inr (hout rfl))).weaken tolerate).mono fun _ q _ hq _ => ?_)
          refine .default hq.2 hd hv ?_ rfl
          rw [Tree.feedOf?, hq.1]
          exact (Tree.feedOf?_disconnect ..).trans (if_pos rfl)
    | false =>
      rw [if_neg (by simp)]
      refine ((behaves_assembler hs htags).weaken fun fault q hf hr => ?_).bind fun id q hg hq => ?_
      · obtain ⟨hq, hfault⟩ := hf hr
        exact ⟨hq, _, hfault⟩
      cases side with
      | input => exact .pure fun hside => (by cases hside)
      | output =>
        obtain ⟨word, type, numbers, place, ha, hplace, hassembled, hboundary⟩ := hq
        refine .ofTree (.of_viable fun hq => ?_)
        obtain ⟨n, hn, hname, htype⟩ := hassembled.node
        have hgroup : n.id.isGroup = false := by
          rw [Tree.id_of_node? hn]
          exact hq.not_group hassembled.index
        obtain ⟨spec, hspec⟩ := exists_output_assembly (assembly?_cases ha).2
        obtain ⟨out, hout', -⟩ :=
          (hq.equipped n (Tree.mem_of_node? hn)).output hgroup (htype ▸ hspec)
        rw [hn]
        dsimp only [Option.bind_some]
        rw [hout']
        have hplace' : q.tree.boundaryIndex? x = some place :=
          (Tree.boundaryIndex?_of_boundary hboundary x).trans hplace
        have hsupplies : Supplies roster q ⟨id, out.id⟩ ⟨.groupOutput, x⟩ :=
          .inr ⟨_, (assembly?_cases ha).2, place, hassembled.index, hplace'⟩
        refine ((proceeds_feed (hout rfl) hsupplies).viably.weaken tolerate).mono
          fun _ r _ hfed _ => ?_
        obtain ⟨hr, hindex, hnodes, hsame, hsource, hfeeds⟩ := hfed
        have hnode : r.tree.node? id = q.tree.node? id := by
          unfold Tree.node?
          rw [hnodes]
        have hkept := hassembled.congr hindex hnode fun m y hm hy => hfeeds y (by
          rintro rfl
          exact hr.hosted.not_mem_inputIds hsource (hnode.trans hm) hy)
        exact .assembled
          ((Tree.boundarySocket?_of_boundary (hsame.trans hboundary) x).trans hs) ha
          ((Tree.boundaryIndex?_of_boundary hsame x).trans hplace') hkept (hnode.trans hn) hout'
          hsource

def Lands (x : SocketId) (q : Pass) : Operand → Prop
  | .handle h => h.kind ≠ .output ∧ q.tree.sourceOf? x = some h.socket
  | .literal l => Stored l x q

def Scope.Assigns (scope : Scope) (p : Pass) (target : Handle) : Operand → Prop
  | .handle _ => scope.assigned target.socket
  | .literal l => scope.assigned ⟨.groupOutput, target.socket.socket⟩ ∧
      scope.Assembles p .output target.socket.socket l

theorem behaves_assign {target : Handle} {value : Operand}
    (hk : ∀ h, value = .handle h → Known roster p h)
    (hw : target.kind = .output → scope.Assigns p target value) :
    Behaves roster scope (assign target value) p
      (fun _ q => target.kind = .output ∧ Lands target.socket.socket q value)
      fun fault q => fault.rejects = true → q = p := by
  unfold assign
  by_cases ht : target.kind = .output
  · replace hw := hw ht
    rw [if_neg (not_not.mpr ht)]
    cases value with
    | handle h =>
      dsimp only
      by_cases ho : h.kind = .output
      · rw [if_pos ho]
        exact .throw fun _ => rfl
      · rw [if_neg ho]
        refine .ofTree ?_
        have hsupplies : Supplies roster p h.socket target.socket := .inl ⟨h, hk h rfl, ho, rfl⟩
        refine ((proceeds_feed hw hsupplies).weaken fun fault q hf hr => ?_).mono
          fun _ q _ hq => ⟨ht, ho, hq.2.2.2.1⟩
        rw [hf] at hr
        cases hr
    | literal l =>
      exact ((behaves_storeLiteral (fun hside => (by cases hside)) (fun _ => hw.1) hw.2).weaken
        fun _ _ hf hr => (hf hr).1).mono fun _ _ _ hq => ⟨ht, hq rfl⟩
  · rw [if_pos ht]
    exact .throw fun _ => rfl

structure Bounds (q : Pass) (side : Side) (name : String) (h : Handle) : Prop where
  node : h.node = groupNode side
  socket : ∃ s, q.tree.boundarySocket? h.socket.socket = some s ∧ s.side = side ∧ s.name = name
  name_eq : h.boundary = some name

theorem bounds_newHandle {t : Tree} (hq : t.Retains q.tree)
    (hs : ∃ s, t.boundarySocket? x = some s ∧ s.side = side ∧ s.name = name) :
    Bounds { q with counts := q.counts.bump kind } side name
      ⟨kind, q.counts.get kind, ⟨groupNode side, x⟩, some name⟩ := by
  obtain ⟨s, hs, rfl, rfl⟩ := hs
  exact ⟨rfl, hq.socket x s hs, rfl⟩

theorem behaves_output (hw : ∀ type, kind.socketType? = some type → scope.asked .output name type) :
    Behaves roster scope (output name kind) p
      (fun h q => h.kind = .output ∧ Bounds q .output name h ∧ ∃ s type,
        kind.socketType? = some type ∧ q.tree.boundarySocket? h.socket.socket = some s ∧
        q.tree.editor.adjust? type = some s.type)
      fun fault q => fault.rejects = true → q = p := by
  unfold output
  cases hk : kind.socketType? with
  | none => exact .throw fun _ => rfl
  | some type =>
    dsimp only
    refine .bind (.weaken (behaves_ask (hw type hk)) fun _ _ hq _ => hq) fun x q hg hq => ?_
    obtain ⟨rfl, s, hs, hat, htype⟩ := hq
    refine .mono (behaves_newHandle _ _ _) fun h q _ hh => ?_
    obtain ⟨rfl, rfl⟩ := hh
    refine ⟨rfl, bounds_newHandle .refl ⟨s, hs, hat⟩, s, type, rfl, hs, ?_⟩
    rw [← htype, ← hg.editor]

/-- An input is there when its default is found not to fit. -/
theorem behaves_input {default : Option Literal}
    (hw : ∀ type, kind.socketType? = some type → scope.asked .input name type)
    (htags : default ≠ none → ∀ e ∈ Tag.assemblies, ∀ place,
      scope.tags (Tag.assembler e.1 .input place)) :
    Behaves roster scope (input name kind default) p
      (fun h q => h.kind = kind ∧ kind ≠ .output ∧ Bounds q .input name h ∧ ∃ s type,
        kind.socketType? = some type ∧ q.tree.boundarySocket? h.socket.socket = some s ∧
        q.tree.editor.adjust? type = some s.type)
      fun fault q => fault.rejects = true → q.tree = p.tree ∨ ∃ l type, default = some l ∧
        fault = .literalOnBoundary l.kind type ∧ q.tree = (input name kind none p).2.tree := by
  cases hk : kind.socketType? with
  | none =>
    unfold input
    rw [hk]
    exact .throw fun _ => .inl rfl
  | some type =>
    have hne : kind ≠ .output := by
      rintro rfl
      cases hk
    have hbare : (input name kind none p).2.tree = (Tree.socketFor .input name type p.tree).2 := by
      rw [input_run, hk]
      dsimp only
      generalize Tree.socketFor .input name type p.tree = r
      obtain ⟨fault | x, t⟩ := r <;> rfl
    rw [hbare]
    refine .mono (Q := fun h q => h.kind = kind ∧ Bounds q .input name h ∧ ∃ s,
        q.tree.boundarySocket? h.socket.socket = some s ∧
        q.tree.editor.adjust? type = some s.type) ?_ fun h q _ hh => by
      obtain ⟨hkind, hbounds, s, hs, htyped⟩ := hh
      exact ⟨hkind, hne, hbounds, s, type, rfl, hs, htyped⟩
    unfold input
    rw [hk]
    dsimp only
    refine .bind (.weaken (behaves_ask (hw type hk)) fun _ _ hq _ => .inl (by rw [hq]))
      fun x q hg hq => .of_viable fun hq' => ?_
    obtain ⟨rfl, s, hs, hat, htype⟩ := hq
    -- from here on the socket is only asked for as what it is
    let only : Scope := ⟨scope.tags, scope.assigned, fun side' name' type' =>
      side' = .input ∧ name' = name ∧ type' = type⟩
    have hlasts : Lasts only { p with tree := (Tree.socketFor .input name type p.tree).2 } x := by
      obtain ⟨hmem, hid⟩ := Tree.mem_of_boundarySocket? hs
      refine ⟨hid ▸ hq'.hosted.grouped.below hq'.hosted.sane hmem, fun r hr type' ha => ?_⟩
      cases hs.symm.trans hr
      rw [ha.2.2, hg.editor, htype]
    have hinside : only.Inside scope := by
      refine ⟨fun _ h => h, fun _ h => h, fun side' name' type' ha => ?_⟩
      rw [ha.1, ha.2.1, ha.2.2]
      exact hw type hk
    have finish : ∀ {q : Pass} {E : Fault → Pass → Prop},
        Runs roster only { p with tree := (Tree.socketFor .input name type p.tree).2 } q →
        Behaves roster scope (newHandle kind ⟨.groupInput, x⟩ (some name)) q
          (fun h q => h.kind = kind ∧ Bounds q .input name h ∧ ∃ s,
            q.tree.boundarySocket? h.socket.socket = some s ∧
            q.tree.editor.adjust? type = some s.type) E := by
      intro q E hruns
      have hgains := Gains.runs hruns
      obtain ⟨r, hr, hside, hname⟩ := hgains.retains.socket x s hs
      refine .mono (behaves_newHandle _ _ _) fun h r' _ hh => ?_
      obtain ⟨rfl, rfl⟩ := hh
      refine ⟨rfl, bounds_newHandle hgains.retains ⟨s, hs, hat⟩, r, hr, ?_⟩
      exact (hlasts.runs hq' hruns).type r hr type ⟨hside.trans hat.1, hname.trans hat.2, rfl⟩
    cases default with
    | none => exact finish .refl
    | some l =>
      have hstore : Behaves roster only (storeLiteral .input x l) _ _ _ :=
        behaves_storeLiteral (fun _ r hr => by
          cases hs.symm.trans hr
          exact ⟨hat.1, type, rfl, hat.2, rfl⟩) (fun hside => (by cases hside))
          fun s word type numbers place _ ha _ => htags (by simp) _ (assembly?_cases ha).2 place
      refine .bind (.weaken (.loosen (.running hstore) hinside) fun fault q hf hr => ?_)
        fun _ q _ hq => finish hq.1
      obtain ⟨rfl, type, hfault⟩ := hf hr
      exact .inr ⟨l, type, rfl, hfault, rfl⟩

end Pass

end FormulaGraph
