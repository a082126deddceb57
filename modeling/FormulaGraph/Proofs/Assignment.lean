import FormulaGraph.Proofs.Pass.Desk

/-!
The last assignment to an output decides what the output shows. Later operations
of the pass leave it alone, whatever they do to other outputs.
-/

namespace FormulaGraph

open Run Relation

namespace Tree

variable {t : Tree} {x : SocketId} {r : SocketRef}

structure FedBy (t : Tree) (x : SocketId) (r : SocketRef) : Prop where
  count : t.feedCount x = 1
  source : t.sourceOf? x = some r

/-- The output of a node that puts numbers together. They are the defaults of its
inputs, in order, and no link leads to these. -/
def Assembles (t : Tree) (type : NodeType) (numbers : List Numeric.Single) (r : SocketRef) : Prop :=
  ∃ n out, t.node? r.node = some n ∧ n.type = type ∧ n.outputs[0]? = some out ∧ r.socket = out.id ∧
    n.inputs.map (·.default) = numbers.map (fun x => some (.float x)) ∧
    ∀ y ∈ n.inputIds, t.feedCount y = 0

/-- What an output shows of a value: a handle by a link, a plain literal as the
default, and a rotation or a matrix by a link from a node that assembles it. -/
inductive Shows (t : Tree) (x : SocketId) : Operand → Prop where
  | handle {h : Handle} (fed : t.FedBy x h.socket) : Shows t x (.handle h)
  | default {l : Literal} {s : Socket} {v value : Value} (value_eq : l.toValue? = some v)
      (found : t.boundarySocket? x = some s) (converted : v.convert s.type = some value)
      (default_eq : s.default = some value) (unfed : t.feedCount x = 0) : Shows t x (.literal l)
  | rotation {w i j k : Numeric.Single} {r : SocketRef} (fed : t.FedBy x r)
      (assembled : t.Assembles .quaternionToRotation [w, i, j, k] r) :
      Shows t x (.literal (.rotation w i j k))
  | matrix {entries : Vector Numeric.Single 16} {r : SocketRef} (fed : t.FedBy x r)
      (assembled : t.Assembles .combineMatrix entries.toList r) :
      Shows t x (.literal (.matrix entries))

theorem feedCount_eq_zero : t.feedCount x = 0 ↔ t.sourceOf? x = none := by
  unfold feedCount sourceOf? feedOf?
  rw [Option.map_eq_none_iff, List.find?_eq_none, List.countP_eq_zero]

theorem Sane.fedBy (hs : t.Sane) (h : t.sourceOf? x = some r) : t.FedBy x r := by
  refine ⟨Nat.le_antisymm (hs.single.feedCount_le x) (Nat.pos_of_ne_zero fun hnone => ?_), h⟩
  rw [feedCount_eq_zero, h] at hnone
  cases hnone

end Tree

namespace Pass

variable {roster : List Handle} {scope : Scope} {p q : Pass} {x y : SocketId} {s : Socket}
  {id : NodeId} {n : Node} {l : Literal} {asked : Side → String → SocketType → Prop}

/-- What operations may reach that leave an output alone: they assign other
outputs, and work on other nodes than those that assemble its value. -/
def Scope.sparing (p : Pass) (x : SocketId) (asked : Side → String → SocketType → Prop) :
    Scope where
  tags := fun tag => ∀ e ∈ Tag.assemblies, ∀ place, p.tree.boundaryIndex? x = some place →
    tag ≠ Tag.assembler e.1 .output place
  assigned := fun r => r.socket ≠ x ∧
    (p.tree.boundarySocket? r.socket = none → p.tree.supply ≤ r.socket.index)
  asked := asked

theorem rests_output (hp : p.Viable) (hs : p.tree.boundarySocket? x = some s)
    (hside : s.side = .output) (hx : Lasts (.sparing p x asked) p x)
    (hsource : ∀ r, p.tree.sourceOf? x = some r → Lasts (.sparing p x asked) p r.socket ∧
      ∃ m, p.tree.node? r.node = some m ∧ Still (.sparing p x asked) p m.name) :
    Rests (.sparing p x asked) p x := by
  obtain ⟨hmem, rfl⟩ := Tree.mem_of_boundarySocket? hs
  obtain ⟨n, hn, hinput⟩ := Tree.hasInput_of_mem hp.hosted.grouped hmem hside
  refine ⟨⟨_, n, hn, hinput, fun ht => ?_⟩, fun r hr => hr.1, hx, fun r hr => (hsource r hr).1,
    .inr fun r hr => (hsource r hr).2⟩
  have hgroup := hp.hosted.grouped.not_group hn ht
  cases hgroup

theorem rests_unfed (hp : p.Viable) (hn : p.tree.node? id = some n) (hg : id.isGroup = false)
    (hstill : Still (.sparing p x asked) p n.name) (hy : y ∈ n.inputIds)
    (hunfed : p.tree.sourceOf? y = none) : Rests (.sparing p x asked) p y := by
  have hsocket : y ∈ n.socketIds := List.mem_append_left _ hy
  have none_of : ∀ {P : SocketRef → Prop}, ∀ r, p.tree.sourceOf? y = some r → P r := by
    intro P r hr
    rw [hunfed] at hr
    cases hr
  refine ⟨⟨id, n, hn, hy, hstill⟩, ?_, hp.lasts hn hg hsocket, none_of, .inr none_of⟩
  rintro r hr rfl
  have hbelow := hp.hosted.sane.socketsBelow _ n _ hn hsocket
  exact Nat.not_lt.mpr (hr.2 (hp.not_boundary hn hg hsocket)) hbelow

section Assembly

variable {word : String} {type : SocketType} {node : NodeType} {numbers : List Numeric.Single}

theorem assembly?_spec (h : assembly? l type = some (word, node, numbers)) :
    numbers.length = node.inputs.length ∧ ∀ spec ∈ node.inputs, spec.type = .float := by
  unfold assembly? at h
  split at h <;> cases h
  · exact ⟨rfl, by decide⟩
  · exact ⟨by simp [NodeType.inputs, NodeType.matrixInputs], by decide⟩

/-- A node that is wired with numbers holds them as defaults, and nothing feeds
it. -/
theorem Viable.defaults (hp : p.Viable) (h : assembly? l type = some (word, node, numbers))
    (hn : p.tree.node? id = some n) (hg : id.isGroup = false) (htype : n.type = node)
    (hfed : p.tree.FedAll id (numberSlots numbers)) :
    n.inputs.map (·.default) = numbers.map (fun x => some (.float x)) ∧
      ∀ y ∈ n.inputIds, p.tree.sourceOf? y = none := by
  have hequipped := hp.equipped n (Tree.mem_of_node? hn)
  have hgroup : n.id.isGroup = false := by rw [Tree.id_of_node? hn]; exact hg
  obtain ⟨hlength, hfloat⟩ := assembly?_spec h
  have htypes := hequipped.inputs hgroup
  have hcount : n.inputs.length = numbers.length := by
    have hlengths := congrArg List.length htypes
    simpa [htype, hlength] using hlengths
  have slot : ∀ (i : Nat) (input : Socket) (number : Numeric.Single),
      n.inputs[i]? = some input → numbers[i]? = some number →
      input.default = some (.float number) ∧ p.tree.sourceOf? input.id = none := by
    intro i input number hinput hnumber
    have hmem : (i, Operand.scalar number) ∈ numberSlots numbers :=
      List.mem_mapIdx.mpr ⟨i, (List.getElem?_eq_some_iff.mp hnumber).1, by
        rw [(List.getElem?_eq_some_iff.mp hnumber).2]⟩
    obtain ⟨m, input', hm, hinput', hunfed, -, hdefault⟩ := hfed i _ hmem
    cases hn.symm.trans hm
    cases hinput.symm.trans hinput'
    have htype' : input.type = .float := by
      have hmem' : input.type ∈ n.type.inputs.map (·.type) :=
        htypes ▸ List.mem_map_of_mem (List.mem_of_getElem? hinput)
      obtain ⟨spec, hspec, heq⟩ := List.mem_map.mp hmem'
      rw [← heq]
      exact hfloat spec (htype ▸ hspec)
    refine ⟨?_, by rw [Tree.sourceOf?, hunfed]; rfl⟩
    rw [← hdefault, htype']
    rfl
  constructor
  · refine List.ext_getElem? fun i => ?_
    rw [List.getElem?_map, List.getElem?_map]
    cases hinput : n.inputs[i]? with
    | none =>
      rw [List.getElem?_eq_none_iff, hcount, ← List.getElem?_eq_none_iff] at hinput
      rw [hinput]
      rfl
    | some input =>
      have hlt : i < numbers.length := hcount ▸ (List.getElem?_eq_some_iff.mp hinput).1
      have hnumber : numbers[i]? = some numbers[i] := List.getElem?_eq_getElem hlt
      rw [hnumber, Option.map_some, Option.map_some, (slot i input _ hinput hnumber).1]
  · intro y hy
    obtain ⟨input, hinput, rfl⟩ := List.mem_map.mp hy
    obtain ⟨i, hi, heq⟩ := List.getElem_of_mem hinput
    have hi' : i < numbers.length := hcount ▸ hi
    exact (slot i input _ (List.getElem?_eq_some_iff.mpr ⟨hi, heq⟩)
      (List.getElem?_eq_getElem hi')).2

end Assembly

section Later

variable (hp : p.Viable) (hs : p.tree.boundarySocket? x = some s) (hside : s.side = .output)
  (hx : Lasts (.sparing p x asked) p x) (hm : Runs roster (.sparing p x asked) p q)
include hp hs hside hx hm

/-- A literal stays at its output. -/
theorem Stored.shows (h : Stored l x p) : q.tree.Shows x (.literal l) := by
  cases h with
  | @default s' value found has value_eq unfed default_eq =>
    cases hs.symm.trans found
    have hnone : p.tree.sourceOf? x = none := by rw [Tree.sourceOf?, unfed]; rfl
    have hrests : Rests (.sparing p x asked) p x := rests_output hp hs hside hx fun r hr => by
      rw [hnone] at hr
      cases hr
    obtain ⟨w, hw⟩ := value.exists_convert has
    refine .default value_eq (hx.output_runs hp hm hs hside fun ha => ha.1 rfl) hw
      (default_eq.trans hw) (Tree.feedCount_eq_zero.mpr ?_)
    exact (hrests.runs hp hm).1.trans hnone
  | @assembled s' word type numbers place id n out found assembly place_eq assembled node output
      source =>
    have hq := hp.runs hm
    obtain ⟨m, hnode, hname, htype⟩ := assembled.node
    cases node.symm.trans hnode
    have hgroup := hp.not_group assembled.index
    have hstill : Still (.sparing p x asked) p n.name := fun _ hw =>
      absurd hname (hw _ (assembly?_cases assembly).2 place place_eq)
    have hout : out.id ∈ n.socketIds :=
      List.mem_append_right _ (List.mem_map_of_mem (List.mem_of_getElem? output))
    have hrests : Rests (.sparing p x asked) p x := rests_output hp hs hside hx fun r hr => by
      cases source.symm.trans hr
      exact ⟨hp.lasts node hgroup hout, n, node, hstill⟩
    have hfed := hq.hosted.sane.fedBy ((hrests.runs hp hm).1.trans source)
    obtain ⟨hdefaults, hunfed⟩ := hp.defaults assembly node hgroup htype assembled.fed
    -- the node is out of reach, so it holds what it held
    obtain ⟨n', hn', ho⟩ := hstill.node_runs hp hm node hgroup
    have hassembles : q.tree.Assembles type numbers ⟨id, out.id⟩ := by
      refine ⟨n', out, hn', (show n'.orphan.type = n.orphan.type by rw [ho]).trans htype,
        ?_, rfl, ?_, fun y hy => Tree.feedCount_eq_zero.mpr ?_⟩
      · rw [show n'.outputs = n.outputs from congrArg (·.outputs) ho]
        exact output
      · rw [show n'.inputs = n.inputs from congrArg (·.inputs) ho]
        exact hdefaults
      · rw [(Node.alike_of_orphan ho).inputs] at hy
        exact ((rests_unfed hp node hgroup hstill hy (hunfed y hy)).runs hp hm).1.trans
          (hunfed y hy)
    unfold assembly? at assembly
    split at assembly
    · cases assembly
      exact .rotation hfed hassembles
    · cases assembly
      exact .matrix hfed hassembles
    · cases assembly

theorem Lands.shows {value : Operand} (h : Lands x p value)
    (hh : ∀ h, value = .handle h → Lasts (.sparing p x asked) p h.socket.socket ∧
      ∃ m, p.tree.node? h.node = some m ∧ Still (.sparing p x asked) p m.name) :
    q.tree.Shows x value := by
  cases value with
  | handle h' =>
    have hrests : Rests (.sparing p x asked) p x := rests_output hp hs hside hx fun r hr => by
      cases h.2.symm.trans hr
      exact hh h' rfl
    exact .handle ((hp.runs hm).hosted.sane.fedBy ((hrests.runs hp hm).1.trans h.2))
  | literal l => exact Stored.shows hp hs hside hx hm h

end Later

section Scopes

variable {before after actions : List Action} {target h : Handle} {value : Operand} {d : Desk}

def declares (actions : List Action) (side : Side) (name : String) (type : SocketType) : Prop :=
  side = .output → ∃ kind, .output name kind ∈ actions ∧ kind.socketType? = some type

/-- Whether operations ask for every output with one kind. -/
def OneKind (actions : List Action) : Prop := ∀ name kind kind',
  .output name kind ∈ actions → .output name kind' ∈ actions → kind = kind'

theorem OneKind.consistent (h : OneKind actions) (hs : ∀ side name type,
    scope.asked side name type → declares actions side name type) : scope.Consistent := by
  intro name type type' ha ha'
  obtain ⟨kind, hkind, htype⟩ := hs _ _ _ ha rfl
  obtain ⟨kind', hkind', htype'⟩ := hs _ _ _ ha' rfl
  rw [h name kind kind' hkind hkind', htype'] at htype
  exact (Option.some.inj htype).symm

theorem Lasts.narrow {narrower : Scope} (h : Lasts scope p y) (hs : ∀ side name type,
    narrower.asked side name type → scope.asked side name type) : Lasts narrower p y :=
  ⟨h.below, fun s hs' type ha => h.type s hs' type (hs _ _ _ ha)⟩

theorem Held.narrow {narrower : Scope} (hh : Held scope p h) (hs : ∀ side name type,
    narrower.asked side name type → scope.asked side name type) : Held narrower p h := by
  cases hh with
  | result given => exact .result given
  | bound found node name kind lasts =>
    exact .bound found node name kind fun ho => (lasts ho).narrow hs

theorem Held.output (hh : Held scope p h) (hk : h.kind = .output) :
    ∃ s, p.tree.boundarySocket? h.socket.socket = some s ∧ s.side = .output ∧
      h.node = .groupOutput ∧ Lasts scope p h.socket.socket := by
  cases hh with
  | result given =>
    have hnumeric := given.numeric
    rw [hk] at hnumeric
    cases hnumeric
  | @bound s found node name kind lasts =>
    have hside := kind.mp hk
    exact ⟨s, found, hside, by rw [node, hside]; rfl, lasts hside⟩

/-- The source that a handle of the pass is stays, if it is no input that is asked
for with another type. -/
theorem Held.source (hh : Held scope p h) (hp : p.Viable) (hk : h.kind ≠ .output)
    (ho : p.tree.HasOutput h.socket)
    (hin : ∀ name s type, h.boundary = some name →
      p.tree.boundarySocket? h.socket.socket = some s → scope.asked .input name type →
      p.tree.editor.adjust? type = some s.type) :
    Lasts scope p h.socket.socket ∧ ∃ m, p.tree.node? h.node = some m ∧ Still scope p m.name := by
  cases hh with
  | result given =>
    obtain ⟨m, hm, hname, hg⟩ := given.node hp
    obtain ⟨m', hm', hx⟩ := ho
    cases hm.symm.trans hm'
    exact ⟨hp.lasts hm hg (List.mem_append_right _ hx), m, hm, fun _ _ => hname⟩
  | @bound s found node name kind lasts =>
    have hside : s.side = .input := by
      cases hs : s.side with
      | input => rfl
      | output => exact absurd (kind.mpr hs) hk
    obtain ⟨hmem, hid⟩ := Tree.mem_of_boundarySocket? found
    obtain ⟨i, hi, -, hplain⟩ := hp.hosted.grouped.input
    refine ⟨⟨hid ▸ hp.hosted.grouped.below hp.hosted.sane hmem, fun r hr type ha => ?_⟩, i, ?_,
      fun htag => ?_⟩
    · cases found.symm.trans hr
      rw [hside] at ha
      exact hin _ s type name found ha
    · rw [node, hside]
      exact hi
    · rw [hplain] at htag
      cases htag

def Scope.declaring (actions : List Action) : Scope :=
  ⟨fun _ => True, fun _ => True, declares actions⟩

theorem Action.within_declaring {a : Action}
    (ha : ∀ name kind, a = .output name kind → .output name kind ∈ actions) (p : Pass) :
    a.Within (.declaring actions) p := by
  cases a with
  | input => exact ⟨fun _ _ hside => (by cases hside), fun _ _ _ _ => trivial⟩
  | output name kind => exact fun type htype _ => ⟨kind, ha name kind rfl, htype⟩
  | assign target value =>
    intro _
    cases value with
    | handle h => exact trivial
    | literal l => exact ⟨trivial, fun _ _ _ _ _ _ _ _ => trivial⟩
  | _ => exact fun _ _ => trivial

/-- Whether the input of a name has a type, if the value comes from it. -/
def KeepsType (p : Pass) (value : Operand) (name : String) (type : SocketType) : Prop :=
  ∀ h s, value = .handle h → h.boundary = some name →
    p.tree.boundarySocket? h.socket.socket = some s → p.tree.editor.adjust? type = some s.type

/-- The sockets that may be asked for once a value is assigned: outputs as
declared, and the input that the value comes from with the type that it has. -/
def Scope.later (p : Pass) (x : SocketId) (value : Operand) (actions : List Action) : Scope :=
  .sparing p x fun side name type => declares actions side name type ∧
    (side = .input → KeepsType p value name type)

/-- Operations that do not assign an output keep to the scope that leaves it
alone. -/
theorem Action.within_later {d' : Desk} {a : Action} (hd : d.pass.Viable)
    (hs : d.pass.tree.boundarySocket? x = some s) (hside : s.side = .output)
    (hd' : d'.Sound (.later d.pass x value actions))
    (hr : Runs roster (.later d.pass x value actions) d.pass d'.pass)
    (hown : ∀ h ∈ a.handles, h ∈ d'.given)
    (hout : ∀ name kind, a = .output name kind → .output name kind ∈ actions)
    (hin : ∀ name kind default type, a = .input name kind default →
      kind.socketType? = some type → KeepsType d.pass value name type)
    (hassign : ∀ target value, a = .assign target value → target.socket ≠ ⟨.groupOutput, x⟩) :
    a.Within (.later d.pass x value actions) d'.pass := by
  cases a with
  | input name kind default =>
    refine ⟨fun type htype =>
        ⟨fun hside => (by cases hside), fun _ => hin name kind default type rfl htype⟩,
      fun _ e he place e' he' place' _ heq => ?_⟩
    cases (Tag.assembler_injective he he' heq).2.1
  | output name kind =>
    exact fun type htype => ⟨fun _ => ⟨kind, hout name kind rfl, htype⟩,
      fun hside => (by cases hside)⟩
  | assign target value' =>
    intro hkind
    obtain ⟨r, hfound, hr', hnode, -⟩ := (hd'.held target (hown _ List.mem_cons_self)).output hkind
    have hne : target.socket.socket ≠ x := by
      intro heq
      refine hassign target value' rfl ?_
      rw [← heq, ← hnode]
      rfl
    -- a socket that is neither old nor new has not come to be one of the boundary
    have hassigned : (Scope.later d.pass x value actions).assigned target.socket := by
      refine ⟨hne, fun hnone => Nat.not_lt.mp fun hlt => ?_⟩
      have hlasts : Lasts (.later d.pass x value actions) d.pass target.socket.socket :=
        ⟨hlt, fun s' hs' => by rw [hnone] at hs'; cases hs'⟩
      rw [hlasts.missing_runs hd hr hnone] at hfound
      cases hfound
    cases value' with
    | handle h => exact hassigned
    | literal l =>
      refine ⟨hassigned, fun _ word type _ place _ ha hplace e' he' place' hplace' heq => hne ?_⟩
      have he : (word, type) ∈ Tag.assemblies := (assembly?_cases ha).2
      obtain ⟨-, -, rfl⟩ := Tag.assembler_injective he he' heq
      have hretains := (Gains.runs hr).retains
      obtain ⟨s', hs', hside', -⟩ := hretains.socket x s hs
      exact Tree.eq_of_boundaryIndex? hfound hs' (hr'.trans (hside'.trans hside).symm) hplace
        (hretains.place x _ hplace')
  | _ =>
    refine fun tag hletter e he place _ heq => hletter ?_
    rw [heq]
    exact Tag.letter?_assembler _ _ _

theorem Desk.Sound.assign (hd : d.Sound (.declaring actions)) (hkinds : OneKind actions)
    (hown : ∀ h ∈ (Action.assign target value).handles, h ∈ d.given)
    (hok : (Pass.assign target value d.pass).1 = .ok ()) :
    Runs d.given (.declaring actions) d.pass (d.act (.assign target value)).pass ∧
      (d.act (.assign target value)).Sound (.declaring actions) ∧ target.kind = .output ∧
      Lands target.socket.socket (d.act (.assign target value)).pass value := by
  have hwithin : (Action.assign target value).Within (.declaring actions) d.pass :=
    Action.within_declaring (fun name kind heq => (by cases heq)) _
  obtain ⟨-, hlands, -⟩ := behaves_assign (fun h hh => .inl (hown h
    (List.mem_cons_of_mem _ (Operand.mem_handles.mpr hh)))) hwithin hd.viable
  obtain ⟨hruns, hsound⟩ := hd.act (hkinds.consistent fun _ _ _ ha => ha) hown hwithin
  exact ⟨hruns, hsound, hlands () hok⟩

/-- The operations after an assignment leave its output alone. -/
theorem Desk.Sound.shows (hd : d.Sound (.declaring actions)) (hkinds : OneKind actions)
    (hown : d.Owns after) (hgiven : ∀ h ∈ (Action.assign target value).handles, h ∈ d.given)
    (hkind : target.kind = .output) (hlands : Lands target.socket.socket d.pass value)
    (hout : ∀ name kind, .output name kind ∈ after → .output name kind ∈ actions)
    (hlast : ∀ target' value', .assign target' value' ∈ after → target'.socket ≠ target.socket)
    (hinput : ∀ name kind default type, .input name kind default ∈ after →
      kind.socketType? = some type → KeepsType d.pass value name type) :
    (d.acts after).pass.tree.Shows target.socket.socket value := by
  obtain ⟨s, hs, hside, hnode, hx⟩ := (hd.held target (hgiven _ List.mem_cons_self)).output hkind
  have hlater : d.Sound (.later d.pass target.socket.socket value actions) :=
    ⟨hd.viable, fun h hh => (hd.held h hh).narrow fun _ _ _ ha => ha.1⟩
  obtain ⟨hruns, -⟩ := hlater.acts (hkinds.consistent fun _ _ _ ha => ha.1) hown
    fun d' roster a ha hsound hr hown => Action.within_later hd.viable hs hside hsound hr hown
      (fun name kind heq => hout name kind (heq ▸ ha))
      (fun name kind default type heq => hinput name kind default type (heq ▸ ha))
      fun target' value' heq hsocket => hlast target' value' (heq ▸ ha) (by
        rw [hsocket, ← hnode]
        rfl)
  refine hlands.shows hd.viable hs hside (hx.narrow fun _ _ _ ha => ha.1) hruns fun h hv => ?_
  subst hv
  obtain ⟨l, hl, hsource⟩ := Option.map_eq_some_iff.mp hlands.2
  refine (hlater.held h (hgiven h (by simp [Action.handles, Operand.handles]))).source hd.viable
    hlands.1 (hsource ▸ (hd.viable.hosted.sane.ends l (Tree.mem_of_feedOf? hl)).1) ?_
  exact fun name s type hb hs ha => ha.2 rfl h s rfl hb hs

end Scopes

/-- What an output shows in the end is decided by the last assignment to it, if
every output is asked for with one kind, and the input that an assigned handle
comes from is not asked for again with another type than it has. -/
theorem last_assignment_shows {t : Tree} (ht : t.Edited) {before after : List Action}
    {target : Handle} {value : Operand}
    (hown : (Desk.start t).Owns (before ++ .assign target value :: after))
    (hkinds : OneKind (before ++ after))
    (hok : (assign target value ((Desk.start t).acts before).pass).1 = .ok ())
    (hlast : ∀ target' value', .assign target' value' ∈ after → target'.socket ≠ target.socket)
    (hinput : ∀ h name kind default type s, value = .handle h → h.boundary = some name →
      .input name kind default ∈ after → kind.socketType? = some type →
      ((Desk.start t).acts (before ++ [.assign target value])).pass.tree.boundarySocket?
        h.socket.socket = some s → t.editor.adjust? type = some s.type) :
    ((Desk.start t).acts (before ++ .assign target value :: after)).pass.tree.Shows
      target.socket.socket value := by
  obtain ⟨hbefore, hhandles, hafter⟩ := Desk.owns_append.mp hown
  have hstart : (Desk.start t).Sound (.declaring (before ++ after)) :=
    ⟨viable_start ht.hosted ht.equipped, fun _ hh => (by cases hh)⟩
  obtain ⟨hruns, hd⟩ := hstart.acts (hkinds.consistent fun _ _ _ ha => ha) hbefore
    fun d' _ a ha _ _ _ => Action.within_declaring
      (fun name kind heq => List.mem_append_left _ (heq ▸ ha)) d'.pass
  obtain ⟨hruns', hd₁, hkind, hlands⟩ := hd.assign hkinds hhandles hok
  have heditor : ((Desk.start t).acts (before ++ [.assign target value])).pass.tree.editor =
      t.editor := by
    rw [Desk.acts_append]
    exact (Gains.runs hruns').editor.trans (Gains.runs hruns).editor
  rw [Desk.acts_append] at heditor hinput ⊢
  refine hd₁.shows hkinds hafter (fun h hh => List.mem_append_right _ (hhandles h hh)) hkind hlands
    (fun name kind hm => List.mem_append_right _ hm) hlast ?_
  intro name kind default type hm htype h s hv hb hs
  have hadjust := hinput h name kind default type s hv hb hm htype hs
  rwa [← heditor] at hadjust

/-- A handle and a second rotation in place of what was assigned first. Then the
handle's input is asked for once more, another one with two types, and a third
output is assigned. -/
theorem last_assignment_shows_rotation :
    let a : Handle := ⟨.output, 0, ⟨.groupOutput, ⟨2⟩⟩, some "A"⟩
    let b : Handle := ⟨.output, 1, ⟨.groupOutput, ⟨3⟩⟩, some "B"⟩
    let k : Handle := ⟨.scalar, 0, ⟨.groupInput, ⟨11⟩⟩, some "k"⟩
    let first : List Action := [.output "A" .rotation, .output "B" .vector,
      .assign a (.literal (.rotation 1 0 0 0)), .input "k" .scalar none,
      .assign b (.literal (.scalar 3))]
    let last : List Action := [.input "k" .scalar (some (.scalar 2)), .input "m" .scalar none,
      .input "m" .matrix none, .output "C" .rotation,
      .assign ⟨.output, 2, ⟨.groupOutput, ⟨14⟩⟩, some "C"⟩ (.literal (.rotation 0 0 1 0))]
    let all := first ++ .assign b (.handle k) :: .assign a (.literal (.rotation 0 1 0 0)) :: last
    (Desk.start (.empty .geometry)).Owns all ∧
      ((Desk.start (.empty .geometry)).acts all).pass.tree.Shows ⟨2⟩
        (.literal (.rotation 0 1 0 0)) ∧
      ((Desk.start (.empty .geometry)).acts all).pass.tree.Shows ⟨3⟩ (.handle k) := by
  intro a b k first last all
  have hown : (Desk.start (.empty .geometry)).Owns all := by decide +kernel
  have hkinds : ∀ {actions : List Action}, actions ⊆ all → OneKind actions := by
    intro actions hall name kind kind' h h'
    replace h := hall h
    replace h' := hall h'
    simp [all, first, last] at h h'
    grind
  have hother : ∀ target value, .assign target value ∈ last →
      target.socket ≠ a.socket ∧ target.socket ≠ b.socket := by
    intro target value h
    obtain rfl : target = ⟨.output, 2, ⟨.groupOutput, ⟨14⟩⟩, some "C"⟩ := by
      simp [last] at h
      exact h.1
    decide
  have hsplit : all = (first ++ [.assign b (.handle k)]) ++
      .assign a (.literal (.rotation 0 1 0 0)) :: last := rfl
  refine ⟨hown, ?_, ?_⟩
  · rw [hsplit] at hown ⊢
    refine last_assignment_shows (.empty .geometry) hown (hkinds ?_) (by decide +kernel)
      (fun target value h => (hother target value h).1) ?_
    · intro action h
      simp only [all, List.mem_append, List.mem_cons] at h ⊢
      tauto
    · intro h name kind default type s heq
      cases heq
  · refine last_assignment_shows (.empty .geometry) hown (hkinds ?_) (by decide +kernel) ?_ ?_
    · intro action h
      simp only [all, List.mem_append, List.mem_cons] at h ⊢
      tauto
    · intro target value h
      rcases List.mem_cons.mp h with h | h
      · cases h
        decide
      · exact (hother target value h).2
    · intro h name kind default type s heq hname hinput htype hs
      cases heq
      cases hname
      obtain rfl : kind = .scalar := by
        simp [last] at hinput
        exact hinput.1
      cases htype
      have htyped : (((Desk.start (.empty .geometry)).acts
          (first ++ [.assign b (.handle k)])).pass.tree.boundarySocket? ⟨11⟩).map (·.type) =
          some .float := by decide +kernel
      rw [hs, Option.map_some, Option.some.injEq] at htyped
      rw [htyped]
      rfl

/-- An input that is asked for with another type loses its link to the output. -/
theorem asked_again_drops :
    let a : Handle := ⟨.output, 0, ⟨.groupOutput, ⟨2⟩⟩, some "A"⟩
    let k : Handle := ⟨.scalar, 0, ⟨.groupInput, ⟨3⟩⟩, some "k"⟩
    let before : List Action := [.output "A" .scalar, .input "k" .scalar none]
    let after : List Action := [.input "k" .matrix none]
    (Desk.start (.empty .geometry)).Owns (before ++ .assign a (.handle k) :: after) ∧
      OneKind (before ++ after) ∧
      (assign a (.handle k) ((Desk.start (.empty .geometry)).acts before).pass).1 = .ok () ∧
      (∀ target value, .assign target value ∉ after) ∧
      ((Desk.start (.empty .geometry)).acts
        (before ++ [.assign a (.handle k)])).pass.tree.FedBy ⟨2⟩ k.socket ∧
      ¬((Desk.start (.empty .geometry)).acts
        (before ++ .assign a (.handle k) :: after)).pass.tree.Shows ⟨2⟩ (.handle k) := by
  intro a k before after
  refine ⟨by decide +kernel, ?_, by decide +kernel, by simp [after],
    ⟨by decide +kernel, by decide +kernel⟩, ?_⟩
  · intro name kind kind' h h'
    simp [before, after] at h h'
    grind
  · intro h
    cases h with
    | handle fed =>
      have hnone : ((Desk.start (.empty .geometry)).acts
          (before ++ .assign a (.handle k) :: after)).pass.tree.feedCount ⟨2⟩ = 0 := by
        decide +kernel
      rw [fed.count] at hnone
      cases hnone

end Pass

end FormulaGraph
