import FormulaGraph.Proofs.Pass.Allotment

/-!
Assignments do not meddle with other outputs. An assignment edits one socket of
the boundary, and at most one node: the one that assembles the value. That node
has a name by the place of the output; if an output was removed, it may still
feed another output, which moved to another place.
-/

namespace FormulaGraph

open Run Relation

namespace Tree

variable {t : Tree} {shrunk : Bool} {given : List Handle}

/-- Trees that passes and a host have made in turns, with the handles that were
given on the way, and whether the host has removed an output. -/
inductive Staged : Bool → List Handle → Tree → Prop where
  | empty (editor : Editor) : Staged false [] (empty editor)
  | pass {shrunk : Bool} {given : List Handle} {t : Tree} (h : Staged shrunk given t)
      (actions : List Pass.Action) (owns : (Pass.Desk.resume t given).Owns actions) :
      Staged shrunk ((Pass.Desk.resume t given).acts actions).given
        ((Pass.Desk.resume t given).acts actions).pass.tree
  | addSocket {shrunk : Bool} {given : List Handle} {t : Tree} (h : Staged shrunk given t)
      (name : String) (side : Side) (type : SocketType) :
      Staged shrunk given (addSocket name side type t).2
  | removeSocket {shrunk : Bool} {given : List Handle} {t : Tree} (h : Staged shrunk given t)
      (id : SocketId) :
      Staged (shrunk || (t.boundarySocket? id).any (·.side == .output)) given (removeSocket id t).2

namespace Arranged

variable (h : t.Arranged shrunk given)
include h

theorem start (ht : t.Hosted) (he : t.Equipped) :
    (Pass.start t).Arranged shrunk given where
  apt := h.apt.of_nodes rfl
  clean := h.clean.of_nodes rfl fun _ hl => hl
  located := fun g hg => ⟨(h.located g hg).output, (h.located g hg).value⟩
  allotted := h.allotted
  viable := Pass.viable_start ht he

theorem redress {t' : Tree} {shrunk' : Bool} (ht : t.Hosted)
    (ht' : t'.Hosted) (hr : t.Redresses t') {X : SocketId → Prop} (hb : Reboundary X t t')
    (hplace : shrunk' = false → shrunk = false ∧ ∀ x place, t.HasInput ⟨.groupOutput, x⟩ →
      t.boundaryIndex? x = some place → t'.boundaryIndex? x = some place) :
    t'.Arranged shrunk' given where
  apt := h.apt.reboundary hb
  clean := h.clean.reboundary hb
  located := fun g hg => (h.located g hg).descends hr.descends hr.supply ht ht'
  allotted := by
    intro l hl'
    have hold := hb.links.subset hl'
    refine (h.allotted l hold).descends hold hr.descends ht ht' fun hs => ?_
    obtain ⟨hs', hkept⟩ := hplace hs
    refine ⟨hs', fun place htarget hat => hkept _ place ?_ hat⟩
    rw [← htarget]
    exact (ht.sane.ends l hold).2

theorem addSocket (ht : t.Hosted) (name : String) (side : Side)
    (type : SocketType) : (Tree.addSocket name side type t).2.Arranged shrunk given := by
  have ht' : (Tree.addSocket name side type t).2.Hosted := ht.addSocket
  rcases addSocket_cases (t := t) name side type with heq | ⟨-, wanted, -, heq⟩ <;>
    rw [heq] at ht' ⊢
  · exact h
  · exact h.redress ht ht' (redresses_withSocket side name wanted)
      (reboundary_withSocket ht.sane ht.grouped)
      fun hs => ⟨hs, fun x place _ hat => boundaryIndex?_withSocket hat⟩

theorem removeSocket (ht : t.Hosted) (id : SocketId) :
    (t.dropSocket id).Arranged
      (shrunk || (t.boundarySocket? id).any (·.side == .output)) given := by
  have ht' : (t.dropSocket id).Hosted := ht.dropSocket id
  cases hs : t.boundarySocket? id with
  | none =>
    rw [dropSocket_of_missing hs]
    simpa using h
  | some s =>
    refine h.redress ht ht' (redresses_dropSocket id) (reboundary_dropSocket ht.sane ht.grouped)
      fun hshrunk => ?_
    rw [Bool.or_eq_false_iff] at hshrunk
    refine ⟨hshrunk.1, fun x place hx hat => ?_⟩
    have hside : s.side = .input := by
      cases hs' : s.side with
      | input => rfl
      | output => simp [hs'] at hshrunk
    obtain ⟨o, ho, hinputs, -⟩ := ht.grouped.output
    obtain ⟨n, hn, hmem⟩ := hx
    cases ho.symm.trans hn
    rw [Node.inputIds, hinputs, mem_ids_shownInside] at hmem
    obtain ⟨r, hr, hside', rfl⟩ := hmem
    rwa [boundaryIndex?_dropSocket ht.grouped hs hside
      (boundarySocket?_of_mem ht.grouped.distinct hr) hside']

end Arranged

theorem Staged.arranged (h : t.Staged shrunk given) :
    t.Hosted ∧ t.Equipped ∧ t.Arranged shrunk given := by
  induction h with
  | empty editor =>
    exact ⟨hosted_empty editor, equipped_empty editor, apt_empty editor, clean_empty editor,
      fun _ hh => (by cases hh),
      fun _ hl => (by cases hl)⟩
  | pass _ actions owns ih =>
    obtain ⟨ht, he, ha⟩ := ih
    have hend := Pass.Desk.arranged_acts (d := .resume _ _) (ha.start ht he) owns
    exact ⟨hend.viable.hosted, hend.viable.equipped, hend.toArranged⟩
  | addSocket _ name side type ih =>
    obtain ⟨ht, he, ha⟩ := ih
    exact ⟨ht.addSocket, he.apply ht (.addSocket name side type), ha.addSocket ht name side type⟩
  | removeSocket _ id ih =>
    obtain ⟨ht, he, ha⟩ := ih
    exact ⟨ht.dropSocket id, he.dropSocket id, ha.removeSocket ht id⟩

theorem Staged.acts (h : t.Staged shrunk given) {actions : List Pass.Action}
    (ho : (Pass.Desk.resume t given).Owns actions) :
    ((Pass.Desk.resume t given).acts actions).pass.Arranged shrunk
      ((Pass.Desk.resume t given).acts actions).given := by
  obtain ⟨ht, he, ha⟩ := h.arranged
  exact Pass.Desk.arranged_acts (d := .resume t given) (ha.start ht he) ho

/-- A socket that is fed by a node of numbers alone. -/
theorem reads_defaults {s : Socket} {r : SocketRef} {numbers : List (Option Value)}
    (hlink : t.sourceOf? s.id = some r ∧ t.outputType? r = some s.type) (hr : r.node ≠ .groupInput)
    (hnode : (t.node? r.node).any (fun n => n.type != .value &&
      n.outputs[0]?.any (·.id == r.socket) &&
      n.inputs.all (t.sourceOf? ·.id == none) && n.inputs.map (·.default) == numbers) = true) :
    ∃ type settings, t.Reads (.input s) (.operation type settings 0 (numbers.map .stored)) := by
  obtain ⟨n, hn, hfacts⟩ := (Option.any_eq_true _ _).mp hnode
  simp only [Bool.and_eq_true, bne_iff_ne, beq_iff_eq, List.all_eq_true] at hfacts
  obtain ⟨⟨⟨htype, hout⟩, hfree⟩, rfl⟩ := hfacts
  obtain ⟨out, hslot, hid⟩ := (Option.any_eq_true _ _).mp hout
  have hfed := Reads.fed hlink.1 hlink.2
    (reads_unfed hn hr htype hslot (beq_iff_eq.mp hid) hfree)
  rw [Meaning.into, if_pos rfl] at hfed
  exact ⟨_, _, hfed⟩

def Prescribes (t : Tree) (target : Handle) (value : Operand) (tag : String) : Prop :=
  ∃ l s word type numbers place, target.kind = .output ∧ value = .literal l ∧
    t.boundarySocket? target.socket.socket = some s ∧
    Pass.assembly? l s.type = some (word, type, numbers) ∧
    t.boundaryIndex? target.socket.socket = some place ∧ tag = Tag.assembler word .output place

/-- The node that is to assemble a value for one output feeds another one. -/
def Contested (t : Tree) (target : Handle) (value : Operand) (y : SocketId) : Prop :=
  ∃ r n, t.sourceOf? y = some r ∧ t.node? r.node = some n ∧ t.Prescribes target value n.name

end Tree

namespace Pass

variable {roster given : List Handle} {scope : Scope} {shrunk : Bool} {p q : Pass} {y : SocketId}
  {s : Socket} {id : NodeId} {target : Handle} {value : Operand}

structure Outbound (scope : Scope) (p : Pass) : Prop where
  asked : ∀ side name type, ¬scope.asked side name type
  assigned : ∀ r, scope.assigned r → r.node = .groupOutput ∧ r.socket.index < p.tree.supply ∧
    ∀ s, p.tree.boundarySocket? r.socket = some s → s.side = .output

def Calm (scope : Scope) (p : Pass) (id : NodeId) : Prop :=
  id ≠ .groupOutput ∧ ∃ n, p.tree.node? id = some n ∧ Still scope p n.name

theorem Calm.move (h : Calm scope p id) (hp : p.Viable) (hm : Moves roster scope p q) :
    Calm scope q id := by
  obtain ⟨hne, n, hn, hstill⟩ := h
  obtain ⟨n', hn', hname, -⟩ := hstill.node hp hm hn
  exact ⟨hne, n', hn', hname ▸ hstill.gains (.move hm)⟩

namespace Outbound

variable (ho : Outbound scope p) (hp : p.Viable)
include ho

theorem lasts (hy : y.index < p.tree.supply) : Lasts scope p y :=
  ⟨hy, fun _ _ _ ha => absurd ha (ho.asked _ _ _)⟩

include hp

theorem move (hm : Moves roster scope p q) : Outbound scope q := by
  refine ⟨ho.asked, fun r hr => ?_⟩
  obtain ⟨hnode, hbelow, hside⟩ := ho.assigned r hr
  refine ⟨hnode, Nat.lt_of_lt_of_le hbelow hm.supply_le, fun s hs => ?_⟩
  obtain ⟨f, hf, hkeeps, -⟩ := (ho.lasts hbelow).exists_socket hp hm
  rw [hf] at hs
  obtain ⟨k, hk, rfl⟩ := Option.map_eq_some_iff.mp hs
  exact (hkeeps k).1.trans (hside k hk)

/-- The group output is all of the boundary that is edited. -/
theorem keeps (hm : Moves roster scope p q) : Tree.Keeps (Calm scope p) p.tree q.tree := by
  have hsane := hp.hosted.sane
  have hgrouped := hp.hosted.grouped
  have shown : ∀ {x s}, p.tree.boundarySocket? x = some s → scope.assigned ⟨.groupOutput, x⟩ →
      s.side = .output ∧ p.tree.HasInput ⟨.groupOutput, x⟩ := by
    intro x s hs hw
    have hside := (ho.assigned _ hw).2.2 s hs
    obtain ⟨hmem, rfl⟩ := Tree.mem_of_boundarySocket? hs
    exact ⟨hside, Tree.hasInput_of_mem hgrouped hmem hside⟩
  cases hm with
  | note | give | again => exact .refl
  | work tagged new within hworks =>
    refine hworks.keeps.mono fun id hid => ?_
    obtain ⟨-, n, hn, hstill⟩ := hid
    exact ⟨n, hn, hstill.ne_of_work tagged within new⟩
  | ask within => exact absurd within (ho.asked _ _ _)
  | @store x s value found within =>
    obtain ⟨hside, hinput⟩ := shown found
      (within.resolve_left fun hw => ho.asked _ _ _ hw.2.choose_spec)
    refine (hp.reboundary_store found value).keeps hsane hgrouped ?_
      (fun y hy => .inr (hy ▸ hinput))
      fun hid => hid.1 rfl
    rw [Tree.setSocketDefault_run found]
    split
    · rfl
    · refine Tree.socketsOn_map (f := Tree.redefault _) (fun _ => rfl) (fun r hr hid => ?_) rfl
      have hfound := Tree.boundarySocket?_of_mem hgrouped.distinct hr
      rw [hid] at hfound
      cases found.symm.trans hfound
      rw [hside]
      decide
  | release found within =>
    exact Tree.keeps_disconnect hsane (shown found within).2 fun hid => hid.1 rfl
  | @feed source target within _ =>
    dsimp only
    rcases Tree.reconnect_outcome source target p.tree with ⟨fault, t, heq, hparts, -, hfeed⟩ |
      ⟨hfault, heq⟩ <;> rw [heq]
    · refine ⟨fun id _ => by rw [hparts]; rfl, fun _ _ x _ _ _ _ => ?_⟩
      unfold Tree.sourceOf?
      rw [hfeed]
    · have hinput := ((hsane.disconnect target.socket).ends_of_linkFault? hfault).2
      exact Tree.keeps_reconnected hsane hinput fun hid => hid.1 (ho.assigned _ within).1

theorem keeps_runs (hm : Runs roster scope p q) :
    Tree.Keeps (Calm scope p) p.tree q.tree ∧ ∀ id, Calm scope p id → Calm scope q id := by
  have run : Outbound scope q ∧ Tree.Keeps (Calm scope p) p.tree q.tree ∧
      ∀ id, Calm scope p id → Calm scope q id := by
    induction hm with
    | refl => exact ⟨ho, .refl, fun _ h => h⟩
    | tail hmoves hmove ih =>
      obtain ⟨hout, hkeeps, hcalm⟩ := ih
      have hmid := hp.runs hmoves
      exact ⟨hout.move hmid hmove, hkeeps.trans (hout.keeps hmid hmove) hcalm,
        fun id hid => (hcalm id hid).move hmid hmove⟩
  exact run.2

end Outbound

theorem Viable.source_ne (hp : p.Viable) {n : Node} {x : SocketId} (hn : p.tree.node? id = some n)
    (hx : x ∈ n.outputIds) : id ≠ .groupOutput := by
  intro heq
  have hnone := (hp.equipped n (Tree.mem_of_node? hn)).sink (by rw [Tree.id_of_node? hn, heq])
  rw [Node.outputIds, hnone] at hx
  cases hx

theorem Arranged.closed (ha : p.Arranged shrunk given)
    (htags : ∀ tag, scope.tags tag → Tag.IsAssembler tag) : p.tree.Closed (Calm scope p) := by
  refine Tree.Closed.of_links ha.viable.hosted.sane fun l hl htarget => ?_
  obtain ⟨n, hn, hout⟩ := (ha.viable.hosted.sane.ends l hl).1
  refine ⟨ha.viable.source_ne hn hout, n, hn, fun _ hw => ?_⟩
  obtain ⟨e, he, side, place, hname⟩ := htags _ hw
  exact absurd (ha.allotted l hl n hn e he side place hname).1 htarget.1

def Scope.assigning (p : Pass) (target : Handle) (value : Operand) : Scope where
  tags := p.tree.Prescribes target value
  assigned := fun r => target.kind = .output ∧ r = ⟨.groupOutput, target.socket.socket⟩
  asked := fun _ _ _ => False

theorem isAssembler_of_prescribes {t : Tree} {tag : String} (h : t.Prescribes target value tag) :
    Tag.IsAssembler tag := by
  obtain ⟨l, s, word, type, numbers, place, -, -, -, ha, -, rfl⟩ := h
  exact ⟨_, (assembly?_cases ha).2, .output, place, rfl⟩

namespace Arranged

variable (ha : p.Arranged shrunk given)
include ha

theorem outbound (ht : target ∈ given) (value : Operand) :
    Outbound (.assigning p target value) p := by
  refine ⟨fun _ _ _ h => h, ?_⟩
  rintro r ⟨hk, rfl⟩
  obtain ⟨-, hbelow, hside⟩ := (ha.located target ht).output hk
  exact ⟨rfl, hbelow, hside⟩

theorem assign_runs (hown : ∀ h ∈ (Action.assign target value).handles, h ∈ given) :
    Runs given (.assigning p target value) p (assign target value p).2 := by
  refine (behaves_assign (fun h hh => .inl (hown h
    (List.mem_cons_of_mem _ (Operand.mem_handles.mpr hh)))) (fun hk => ?_) ha.viable).1
  cases value with
  | handle h =>
    have hnode := ((ha.located target (hown _ List.mem_cons_self)).output hk).1
    exact ⟨hk, by rw [← hnode]; rfl⟩
  | literal l =>
    exact ⟨⟨hk, rfl⟩, fun s word type numbers place hs has hplace =>
      ⟨l, s, word, type, numbers, place, hk, rfl, hs, has, hplace, rfl⟩⟩

theorem rests (ht : target ∈ given) (hs : p.tree.boundarySocket? y = some s)
    (hside : s.side = .output) (hy : y ≠ target.socket.socket) (value : Operand) :
    Rests (.assigning p target value) p y := by
  have hout := ha.outbound ht value
  obtain ⟨hmem, rfl⟩ := Tree.mem_of_boundarySocket? hs
  obtain ⟨n, hn, hinput⟩ := Tree.hasInput_of_mem ha.viable.hosted.grouped hmem hside
  refine ⟨⟨_, n, hn, hinput, fun htag => ?_⟩, ?_,
    hout.lasts (ha.viable.hosted.grouped.below ha.viable.hosted.sane hmem), fun r hr => ?_,
    .inl ⟨ha.apt, fun tag h => ?_⟩⟩
  · cases ha.viable.hosted.grouped.not_group hn htag
  · rintro r ⟨-, rfl⟩
    exact hy.symm
  · obtain ⟨l, hl, rfl⟩ := Option.map_eq_some_iff.mp hr
    obtain ⟨m, hm, hx⟩ := (ha.viable.hosted.sane.ends l (Tree.mem_of_feedOf? hl)).1
    exact hout.lasts (ha.viable.hosted.sane.socketsBelow _ m _ hm (List.mem_append_right _ hx))
  · obtain ⟨e, he, side, place, rfl⟩ := isAssembler_of_prescribes h
    exact .assembler he rfl

theorem not_contested (ht : target ∈ given) (hs : p.tree.boundarySocket? y = some s)
    (hside : s.side = .output) (hy : y ≠ target.socket.socket) (hshrunk : shrunk = false) :
    ¬p.tree.Contested target value y := by
  rintro ⟨r, n, hr, hn, l, k, word, type, numbers, place, hk, -, hfound, has, hplace, hname⟩
  obtain ⟨link, hlink, rfl⟩ := Option.map_eq_some_iff.mp hr
  obtain ⟨-, hat⟩ := ha.allotted link (Tree.mem_of_feedOf? hlink) n hn _ (assembly?_cases has).2
    .output place hname
  replace hat := hat hshrunk
  rw [Tree.target_of_feedOf? hlink] at hat
  have hk' := ((ha.located target ht).output hk).2.2 k hfound
  exact hy (Tree.eq_of_boundaryIndex? hs hfound (hside.trans hk'.symm) hat hplace)

/-- An output reads as before if what feeds it is not worked on. -/
theorem reads_iff (hown : ∀ h ∈ (Action.assign target value).handles, h ∈ given)
    (hfree : ¬p.tree.Contested target value y) (hid : s.id = y)
    (hsource : (assign target value p).2.tree.sourceOf? y = p.tree.sourceOf? y) (m : Meaning) :
    (assign target value p).2.tree.Reads (.input s) m ↔ p.tree.Reads (.input s) m := by
  subst hid
  have hout := ha.outbound (hown _ List.mem_cons_self) value
  obtain ⟨hkeeps, -⟩ := hout.keeps_runs ha.viable (ha.assign_runs hown)
  have hclosed : p.tree.Closed (Calm (.assigning p target value) p) :=
    ha.closed fun _ => isAssembler_of_prescribes
  have calm : ∀ r, p.tree.sourceOf? s.id = some r → Calm (.assigning p target value) p r.node := by
    intro r hr
    obtain ⟨l, hl, rfl⟩ := Option.map_eq_some_iff.mp hr
    obtain ⟨n, hn, hx⟩ := (ha.viable.hosted.sane.ends l (Tree.mem_of_feedOf? hl)).1
    refine ⟨ha.viable.source_ne hn hx, n, hn, fun _ hw => absurd ⟨_, n, hr, hn, hw⟩ hfree⟩
  constructor
  · intro h
    cases h with
    | stored free => exact .stored (hsource ▸ free)
    | fed feed type reads =>
      rw [hsource] at feed
      have hr := calm _ feed
      rw [Tree.outputType?_of_keeps hkeeps hr] at type
      exact .fed feed type ((Tree.Reads.iff_of_keeps hclosed hkeeps hr).mp reads)
  · intro h
    cases h with
    | stored free => exact .stored (hsource.trans free)
    | fed feed type reads =>
      have hr := calm _ feed
      exact .fed (hsource.trans feed) ((Tree.outputType?_of_keeps hkeeps hr).trans type)
        ((Tree.Reads.iff_of_keeps hclosed hkeeps hr).mpr reads)

end Arranged

/-- An assignment changes neither the default nor the link of another output, nor
what it reads, as long as no output was removed. After that, it changes what an
output reads only if this is fed by the node that assembles the value. -/
theorem assign_spares_outputs {t : Tree} (ht : t.Staged shrunk given) {actions : List Action}
    (hown : (Desk.resume t given).Owns (actions ++ [.assign target value])) :
    let p := ((Desk.resume t given).acts actions).pass
    let q := (assign target value p).2
    ∀ y s, p.tree.boundarySocket? y = some s → s.side = .output → y ≠ target.socket.socket →
      q.tree.boundarySocket? y = some s ∧ q.tree.sourceOf? y = p.tree.sourceOf? y ∧
      ((∀ m, q.tree.Reads (.input s) m ↔ p.tree.Reads (.input s) m) ∨
        shrunk = true ∧ p.tree.Contested target value y) := by
  intro p q y s hs hside hy
  obtain ⟨hactions, hhandles, -⟩ := Desk.owns_append.mp hown
  have ha : p.Arranged shrunk ((Desk.resume t given).acts actions).given := ht.acts hactions
  have htarget := hhandles _ List.mem_cons_self
  have hruns := ha.assign_runs hhandles
  have hrests := ha.rests htarget hs hside hy value
  have hsource := (hrests.runs ha.viable hruns).1
  refine ⟨hrests.lasts.output_runs ha.viable hruns hs hside fun h => hy ?_, hsource, ?_⟩
  · exact congrArg SocketRef.socket h.2
  · by_cases hfree : p.tree.Contested target value y
    · cases hshrunk : shrunk with
      | false => exact absurd hfree (ha.not_contested htarget hs hside hy hshrunk)
      | true => exact .inr ⟨rfl, hfree⟩
    · exact .inl (ha.reads_iff hhandles hfree (Tree.mem_of_boundarySocket? hs).2 hsource)

/-- A second output is assigned while the first one shows a rotation. -/
theorem assign_spares_outputs_rotation :
    let a : Handle := ⟨.output, 0, ⟨.groupOutput, ⟨2⟩⟩, some "A"⟩
    let b : Handle := ⟨.output, 1, ⟨.groupOutput, ⟨3⟩⟩, some "B"⟩
    let s : Socket := ⟨⟨2⟩, "A", .output, .rotation, none, false⟩
    let actions : List Action := [.output "A" .rotation, .output "B" .rotation,
      .assign a (.literal (.rotation 1 0 0 0))]
    let p := ((Desk.resume (.empty .geometry) []).acts actions).pass
    let q := (assign b (.literal (.rotation 0 1 0 0)) p).2
    (Desk.resume (.empty .geometry) []).Owns
        (actions ++ [.assign b (.literal (.rotation 0 1 0 0))]) ∧
      p.tree.boundarySocket? ⟨2⟩ = some s ∧ q.tree.sourceOf? ⟨2⟩ = p.tree.sourceOf? ⟨2⟩ ∧
      ∀ m, q.tree.Reads (.input s) m ↔ p.tree.Reads (.input s) m := by
  intro a b s actions p q
  have hown : (Desk.resume (.empty .geometry) []).Owns
      (actions ++ [.assign b (.literal (.rotation 0 1 0 0))]) := by decide +kernel
  have hs : p.tree.boundarySocket? ⟨2⟩ = some s := by decide +kernel
  obtain ⟨-, hsource, hreads⟩ :=
    assign_spares_outputs (.empty .geometry) hown ⟨2⟩ s hs rfl (by decide)
  exact ⟨hown, hs, hsource, hreads.resolve_right fun h => (by cases h.1)⟩

/-- Two outputs show rotations, and the first one is removed. A third one is then
at the place that the second had, and a rotation for it becomes that of the
second. -/
theorem removed_output_contested :
    let a : Handle := ⟨.output, 0, ⟨.groupOutput, ⟨2⟩⟩, some "A"⟩
    let b : Handle := ⟨.output, 1, ⟨.groupOutput, ⟨3⟩⟩, some "B"⟩
    let c : Handle := ⟨.output, 0, ⟨.groupOutput, ⟨18⟩⟩, some "C"⟩
    let s : Socket := ⟨⟨3⟩, "B", .output, .rotation, none, false⟩
    let first := (Desk.resume (.empty .geometry) []).acts [.output "A" .rotation,
      .output "B" .rotation, .assign a (.literal (.rotation 1 0 0 0)),
      .assign b (.literal (.rotation 0 1 0 0))]
    let t := (Tree.removeSocket ⟨2⟩ first.pass.tree).2
    let p := ((Desk.resume t first.given).acts [.output "C" .rotation]).pass
    let q := (assign c (.literal (.rotation 0 0 1 0)) p).2
    t.Staged true first.given ∧
      (Desk.resume t first.given).Owns
        ([.output "C" .rotation] ++ [.assign c (.literal (.rotation 0 0 1 0))]) ∧
      (assign c (.literal (.rotation 0 0 1 0)) p).1 = .ok () ∧
      p.tree.boundarySocket? ⟨3⟩ = some s ∧
      ¬∀ m, q.tree.Reads (.input s) m ↔ p.tree.Reads (.input s) m := by
  intro a b c s first t p q
  have hown : (Desk.resume t first.given).Owns
      ([.output "C" .rotation] ++ [.assign c (.literal (.rotation 0 0 1 0))]) := by decide +kernel
  have hstaged : t.Staged true first.given := by
    have hshrunk : (false || (first.pass.tree.boundarySocket? ⟨2⟩).any (·.side == .output)) =
        true := by
      decide +kernel
    rw [← hshrunk]
    exact .removeSocket (.pass (.empty .geometry) _ (by decide +kernel)) ⟨2⟩
  refine ⟨hstaged, hown, by decide +kernel, by decide +kernel, fun hreads => ?_⟩
  obtain ⟨type, settings, hp⟩ : ∃ type settings, p.tree.Reads (.input s)
      (.operation type settings 0 ([some (.float 0), some (.float 1), some (.float 0),
        some (.float 0)].map .stored)) :=
    Tree.reads_defaults (r := ⟨⟨11⟩, ⟨16⟩⟩) (by decide +kernel) (by decide) (by decide +kernel)
  obtain ⟨type', settings', hq⟩ : ∃ type settings, q.tree.Reads (.input s)
      (.operation type settings 0 ([some (.float 0), some (.float 0), some (.float 1),
        some (.float 0)].map .stored)) :=
    Tree.reads_defaults (r := ⟨⟨11⟩, ⟨16⟩⟩) (by decide +kernel) (by decide) (by decide +kernel)
  have ha : p.Arranged true _ := hstaged.acts (Desk.owns_append.mp hown).1
  have heq := ((hreads _).mp hq).unique ha.viable.hosted.sane hp
  injection heq with _ _ _ hinputs
  rw [List.map_inj_right fun _ _ h => Meaning.stored.inj h] at hinputs
  exact absurd hinputs (by decide)

end Pass

end FormulaGraph
