import FormulaGraph.Proofs.Pass.Finish
import FormulaGraph.Proofs.Pass.Framing
import FormulaGraph.Proofs.Pass.Relay
import Mathlib.Data.List.Forall2

/-!
Two passes in step. When the trees of two passes correspond, and so do the
nodes and sockets that they work on, then each step of the one has a step of the
other that ends alike. A pass paired with itself gives what every step of it
keeps.
-/

namespace FormulaGraph

open Run

structure Fault.Same (f f' : Fault) : Prop where
  message : f'.message = f.message
  faultClass : f'.faultClass = f.faultClass

variable {α β γ : Type}

theorem Fault.Same.refl (f : Fault) : f.Same f := ⟨rfl, rfl⟩

theorem forall₂_getElem? {R : α → β → Prop} {l : List α} {l' : List β}
    (h : List.Forall₂ R l l') (i : Nat) : Option.Rel R l[i]? l'[i]? := by
  induction h generalizing i with
  | nil => exact .none
  | cons hr _ ih =>
    cases i with
    | zero => exact .some hr
    | succ i => exact ih i

theorem rel_bind {δ : Type} {R : α → β → Prop} {S : γ → δ → Prop} {o : Option α}
    {o' : Option β} {f : α → Option γ} {f' : β → Option δ} (h : Option.Rel R o o')
    (hf : ∀ a b, R a b → Option.Rel S (f a) (f' b)) : Option.Rel S (o.bind f) (o'.bind f') := by
  cases h with
  | none => exact .none
  | some hr => exact hf _ _ hr

theorem rel_cases {R : α → β → Prop} {o : Option α} {o' : Option β}
    (h : Option.Rel R o o') :
    o = none ∧ o' = none ∨ ∃ a b, o = some a ∧ o' = some b ∧ R a b := by
  cases h with
  | none => exact .inl ⟨rfl, rfl⟩
  | some hr => exact .inr ⟨_, _, rfl, rfl, hr⟩

inductive Outcomes {α β : Type} (R : α → β → Prop) : Except Fault α → Except Fault β → Prop
  | ok {a : α} {b : β} (h : R a b) : Outcomes R (.ok a) (.ok b)
  | error {f f' : Fault} (h : f.Same f') : Outcomes R (.error f) (.error f')

theorem Outcomes.self {R : α → α → Prop} {r : Except Fault α}
    (h : ∀ a, r = .ok a → R a a) : Outcomes R r r := by
  cases r with
  | ok a => exact .ok (h a rfl)
  | error f => exact .error (.refl f)

theorem Outcomes.imp {R S : α → β → Prop} {r : Except Fault α} {r' : Except Fault β}
    (h : Outcomes R r r') (hs : ∀ a b, r = .ok a → R a b → S a b) : Outcomes S r r' := by
  cases h with
  | ok hr => exact .ok (hs _ _ rfl hr)
  | error hf => exact .error hf

theorem Outcomes.map_right {R : α → β → Prop} {S : α → γ → Prop}
    {r : Except Fault α} {r' : Except Fault β} (h : Outcomes R r r') (f : β → γ)
    (hs : ∀ a b, R a b → S a (f b)) : Outcomes S r (r'.map f) := by
  cases h with
  | ok hr => exact .ok (hs _ _ hr)
  | error hf => exact .error hf

theorem ok_of_mapError {ε ε' : Type} {f : ε → ε'} {r : Except ε α} {a : α}
    (h : r.mapError f = .ok a) : r = .ok a := by
  cases r with
  | ok b =>
    cases h
    rfl
  | error e => cases h

namespace Pass

/-- What a pass changes of a node in place: its settings, a default and the
colour that goes with it, what a constant holds, where it is. -/
inductive Touch where
  | settings (entries : List (String × String))
  | input (slot : Nat) (value : Value)
  | output (value : Value) (position : Point)
  | move (position : Point)

def Touch.apply : Touch → Node → Node
  | settings entries, n => refresh entries n
  | input slot value, n => { n.setInputDefault slot value with color := some changedTint }
  | output value position, n => { n.setOutputDefault 0 value with position := position }
  | move position, n => { n with position := position }

theorem alike_touch (touch : Touch) (n : Node) : (touch.apply n).Alike n := by
  cases touch with
  | settings entries => exact alike_refresh n
  | input slot value =>
    have ha := Node.alike_setInputDefault n slot value
    exact ⟨ha.inputs, ha.outputs, ha.inputRoles, ha.outputRoles⟩
  | output value position =>
    have ha := Node.alike_setOutputDefault n 0 value
    exact ⟨ha.inputs, ha.outputs, ha.inputRoles, ha.outputRoles⟩
  | move position => exact ⟨rfl, rfl, rfl, rfl⟩

/-- How two passes correspond: by their trees, by the generated nodes that they
work on, and by the sockets that they link. -/
structure Pairing where
  tree : Tree → Tree → Prop
  node : NodeId → NodeId → Prop
  socket : SocketId → SocketId → Prop

namespace Pairing

variable (P : Pairing)

def Known (x x' : NodeId) : Prop := P.node x x' ∨ x' = x ∧ x.isGroup = true

structure Ref (r r' : SocketRef) : Prop where
  node : P.Known r.node r'.node
  socket : P.socket r.socket r'.socket

structure Handles (h h' : Handle) : Prop where
  kind : h'.kind = h.kind
  number : h'.number = h.number
  boundary : h'.boundary = h.boundary
  socket : P.Ref h.socket h'.socket

structure Built (h h' : Handle) : Prop extends P.Handles h h' where
  node : P.node h.node h'.node

inductive Operands : Operand → Operand → Prop
  | handle {h h' : Handle} (hh : P.Handles h h') : Operands (.handle h) (.handle h')
  | literal (l : Literal) : Operands (.literal l) (.literal l)

structure Sockets (s s' : Socket) : Prop where
  id : P.socket s.id s'.id
  type : s'.type = s.type
  default : s'.default = s.default

structure Nodes (n n' : Node) : Prop where
  type : n'.type = n.type
  position : n'.position = n.position
  inputs : List.Forall₂ P.Sockets n.inputs n'.inputs
  outputs : List.Forall₂ P.Sockets n.outputs n'.outputs

def Entries (e e' : String × NodeId) : Prop := e'.1 = e.1 ∧ P.Known e.2 e'.2

def Results (e e' : String × List Handle) : Prop := e'.1 = e.1 ∧ List.Forall₂ P.Built e.2 e'.2

structure State (p p' : Pass) : Prop where
  tree : P.tree p.tree p'.tree
  counts : p'.counts = p.counts
  literals : p'.literals = p.literals
  index : List.Forall₂ P.Entries p.index p'.index
  results : List.Forall₂ P.Results p.results p'.results
  used : List.Forall₂ P.node p.used p'.used
  constants : p'.constants = p.constants
  created : p'.created = p.created

/-- Two computations that go on alike from states that correspond. -/
def Paired {α β : Type} (R : α → β → Prop) (m : PassM α) (m' : PassM β) : Prop :=
  ∀ p p', P.State p p' → Outcomes R (m p).1 (m' p').1 ∧ P.State (m p).2 (m' p').2

end Pairing

def held (id : NodeId) (x : Numeric.Double) (p : Pass) : Pass :=
  { p with
    tree := p.tree.modifyNode id
      (Touch.output (.float x.toSingle) (constantPosition p.tree p.constants)).apply
    constants := p.constants + 1 }

def Whatever {α β : Type} (_ : α) (_ : β) : Prop := True

namespace Pairing.Paired

variable {P : Pairing} {α β γ δ : Type} {R : α → β → Prop} {S : γ → δ → Prop}
  {m : PassM α} {m' : PassM β}

theorem pure {a : α} {b : β} (h : R a b) : P.Paired R (pure a) (pure b) :=
  fun _ _ hp => ⟨.ok h, hp⟩

theorem throw_bind {f f' : Fault} {k : α → PassM γ} {k' : β → PassM δ} (h : f.Same f') :
    P.Paired S (throw f >>= k) (throw f' >>= k') := fun _ _ hp => ⟨.error h, hp⟩

theorem throw {f f' : Fault} (h : f.Same f') :
    P.Paired R (throw f : PassM α) (throw f' : PassM β) :=
  fun _ _ hp => ⟨.error h, hp⟩

theorem bind {k : α → PassM γ} {k' : β → PassM δ} (hm : P.Paired R m m')
    (hk : ∀ a b, R a b → P.Paired S (k a) (k' b)) : P.Paired S (m >>= k) (m' >>= k') := by
  intro p p' hp
  have h := hm p p' hp
  rw [bind_run, bind_run]
  rcases hr : m p with ⟨r, q⟩
  rcases hr' : m' p' with ⟨r', q'⟩
  rw [hr, hr'] at h
  obtain ⟨ho, hq⟩ := h
  cases ho with
  | ok hab => exact hk _ _ hab q q' hq
  | error hs => exact ⟨.error hs, hq⟩

theorem ite {c c' : Prop} [Decidable c] [Decidable c'] {k : PassM α} {k' : PassM β}
    (hc : c' ↔ c) (hm : c → P.Paired R m m') (hk : ¬c → P.Paired R k k') :
    P.Paired R (if c then m else k) (if c' then m' else k') := by
  by_cases h : c
  · rw [if_pos h, if_pos (hc.mpr h)]
    exact hm h
  · rw [if_neg h, if_neg (mt hc.mp h)]
    exact hk h

theorem get : P.Paired P.State get get := fun _ _ hp => ⟨.ok hp, hp⟩

theorem getTree : P.Paired P.tree getTree getTree := fun _ _ hp => ⟨.ok hp.tree, hp⟩

theorem modifyTree {f f' : Tree → Tree} (h : ∀ t t', P.tree t t' → P.tree (f t) (f' t')) :
    P.Paired Whatever (modifyTree f) (modifyTree f') :=
  fun _ _ hp => ⟨.ok trivial, { hp with tree := h _ _ hp.tree }⟩

theorem modify {f f' : Pass → Pass} (h : ∀ p p', P.State p p' → P.State (f p) (f' p')) :
    P.Paired Whatever (modify f : PassM PUnit) (modify f' : PassM PUnit) :=
  fun p p' hp => ⟨.ok trivial, h p p' hp⟩

theorem discard (hm : P.Paired R m m') : P.Paired Whatever (discard m) (discard m') :=
  hm.bind fun _ _ _ => .pure trivial

theorem edit {ε : Type} {toFault : ε → Fault} {e : Edit ε α} {e' : Edit ε β}
    (h : ∀ t t', P.tree t t' →
      Outcomes R ((e t).1.mapError toFault) ((e' t').1.mapError toFault) ∧
        P.tree (e t).2 (e' t').2) :
    P.Paired R (edit toFault e) (edit toFault e') :=
  fun _ _ hp => ⟨(h _ _ hp.tree).1, { hp with tree := (h _ _ hp.tree).2 }⟩

end Pairing.Paired

def besideActive (t : Tree) : Tree :=
  match t.node? (t.active.getD .groupInput) with
  | none => t
  | some anchor => t.modifyNode .groupOutput (following anchor)

theorem settleOutput_eq : settleOutput = modifyTree besideActive := by
  funext p
  unfold settleOutput modifyTree besideActive
  rw [bind_of_ok (show getTree p = (.ok p.tree, p) from rfl), modify_run]
  cases p.tree.node? (p.tree.active.getD .groupInput) with
  | none => rfl
  | some anchor => rfl

theorem isBuilt_of_assembly? {l : Literal} {socket : SocketType} {word : String} {type : NodeType}
    {numbers : List Numeric.Single} (h : assembly? l socket = some (word, type, numbers)) :
    type.isBuilt = true := by
  unfold assembly? at h
  split at h <;> cases h <;> rfl

/-- What corresponding trees and the edits of a pass have to satisfy. -/
structure Pairing.Lawful (P : Pairing) : Prop where
  unique : Relator.BiUnique P.node
  not_group : ∀ {x x'}, P.node x x' → x.isGroup = false ∧ x'.isGroup = false
  node? : ∀ {t t' x x'}, P.tree t t' → P.Known x x' →
    Option.Rel P.Nodes (t.node? x) (t'.node? x')
  group_type : ∀ {t t' x n}, P.tree t t' → x.isGroup = true → t.node? x = some n →
    n.type.isBuilt = false
  editor : ∀ {t t'}, P.tree t t' → t'.editor = t.editor
  tagged : ∀ {t t'}, P.tree t t' →
    List.Forall₂ (fun n n' => n'.name = n.name ∧ P.Known n.id n'.id)
      (t.nodes.filter fun n => Tag.isTag n.name) (t'.nodes.filter fun n => Tag.isTag n.name)
  setActive : ∀ {t t' x x'}, P.tree t t' → P.node x x' →
    P.tree (t.setActive (some x)) (t'.setActive (some x'))
  addNode : ∀ {t t'} (tag : String) (type : NodeType) (settings : List (String × String)),
    P.tree t t' → Tag.isTag tag = true →
    P.tree (t.addNode type (setup t tag settings)).1 (t'.addNode type (setup t' tag settings)).1 ∧
      P.node ⟨t.supply⟩ ⟨t'.supply⟩
  removeNode : ∀ {t t' x x'}, P.tree t t' → P.node x x' → P.tree (t.removeNode x) (t'.removeNode x')
  touch : ∀ {t t' x x'} (touch : Touch), P.tree t t' → P.node x x' →
    P.tree (t.modifyNode x touch.apply) (t'.modifyNode x' touch.apply)
  framed : ∀ {t t' x x' members members'} (label : String), P.tree t t' → P.node x x' →
    List.Forall₂ P.node members members' →
    P.tree (framedTree t x label members) (framedTree t' x' label members')
  besideActive : ∀ {t t'}, P.tree t t' → P.tree (besideActive t) (besideActive t')
  feed : ∀ {t t' x x' r r'}, P.tree t t' → P.socket x x' → P.Ref r r' →
    ((t'.feedOf? x').map (·.source) = some r' ↔ (t.feedOf? x).map (·.source) = some r)
  disconnect : ∀ {t t' x x'}, P.tree t t' → P.socket x x' →
    P.tree (t.disconnect x) (t'.disconnect x')
  reconnect : ∀ {a a' b b'}, P.Ref a a' → P.Ref b b' →
    P.Paired Whatever (edit .link (Tree.reconnect a b)) (edit .link (Tree.reconnect a' b'))
  boundarySocket : ∀ {t t' x x'}, P.tree t t' → P.socket x x' →
    Option.Rel P.Sockets (t.boundarySocket? x) (t'.boundarySocket? x')
  boundaryIndex : ∀ {t t' x x'}, P.tree t t' → P.socket x x' →
    t'.boundaryIndex? x' = t.boundaryIndex? x
  socketFor : ∀ side name type, P.Paired P.socket
    (edit .boundary (Tree.socketFor side name type))
    (edit .boundary (Tree.socketFor side name type))
  setSocketDefault : ∀ {x x'} (value : Value), P.socket x x' → P.Paired Whatever
    (edit .boundary (Tree.setSocketDefault x value))
    (edit .boundary (Tree.setSocketDefault x' value))
  keepInputs : ∀ {t t'} (names : List String), P.tree t t' →
    P.tree (t.keepInputs names) (t'.keepInputs names)

namespace Pairing

variable {P : Pairing}
  {o o' : Operand} {args args' : List Operand}

theorem Operands.kind (h : P.Operands o o') : o'.kind = o.kind := by
  cases h with
  | handle hh => exact hh.kind
  | literal l => rfl

theorem Operands.isVector (h : P.Operands o o') : o'.isVector = o.isVector := by
  rw [Operand.isVector, Operand.isVector, h.kind]

theorem any_isVector (h : List.Forall₂ P.Operands args args') :
    args'.any (·.isVector) = args.any (·.isVector) := by
  induction h with
  | nil => rfl
  | cons ho _ ih => rw [List.any_cons, List.any_cons, ih, ho.isVector]

theorem lookup_related {α β : Type} {R : α → β → Prop} {l : List (String × α)}
    {l' : List (String × β)} (h : List.Forall₂ (fun e e' => e'.1 = e.1 ∧ R e.2 e'.2) l l')
    (key : String) : Option.Rel R (l.lookup key) (l'.lookup key) := by
  induction h with
  | nil => exact .none
  | @cons e e' _ _ he _ ih =>
    obtain ⟨name, a⟩ := e
    obtain ⟨name', b⟩ := e'
    obtain ⟨rfl, hr⟩ : name' = name ∧ R a b := he
    rw [List.lookup_cons, List.lookup_cons]
    split
    · exact .some hr
    · exact ih

theorem paired_newHandle {r r' : SocketRef} (kind : Kind) (name : Option String) (hr : P.Ref r r') :
    P.Paired P.Handles (newHandle kind r name) (newHandle kind r' name) := by
  intro p p' hp
  refine ⟨.ok ⟨rfl, ?_, rfl, hr⟩, { hp with counts := ?_ }⟩
  · show p'.counts.get kind = p.counts.get kind
    rw [hp.counts]
  · show p'.counts.bump kind = p.counts.bump kind
    rw [hp.counts]

theorem markers_related (h : List.Forall₂ P.Operands args args')
    (literals : Nat) : markers literals args' = markers literals args := by
  induction h generalizing literals with
  | nil => rfl
  | cons ho _ ih =>
    cases ho with
    | handle hh =>
      rw [markers, markers, ih, Handle.marker, Handle.marker, hh.kind, hh.number]
    | literal l => rw [markers, markers, ih]

def Tags (a b : String) : Prop := b = a ∧ Tag.isTag a = true

theorem paired_tag (op : String)
    (h : List.Forall₂ P.Operands args args') : P.Paired Tags (tag op args) (tag op args') := by
  intro p p' hp
  have hm : markers p'.literals args' = markers p.literals args := by
    rw [hp.literals, markers_related h]
  have hrun : ∀ (q : Pass) (args : List Operand), tag op args q =
      (.ok (Tag.operation op (markers q.literals args).1),
        { q with literals := (markers q.literals args).2 }) := fun _ _ => rfl
  rw [hrun, hrun, hm]
  exact ⟨.ok ⟨rfl, Tag.isTag_operation _ _⟩, { hp with literals := rfl }⟩

theorem paired_result? (name : String) :
    P.Paired (Option.Rel (List.Forall₂ P.Built)) (result? name) (result? name) :=
  fun _ _ hp => ⟨.ok (lookup_related hp.results name), hp⟩

theorem paired_keepResult {hs hs' : List Handle} (name : String)
    (h : List.Forall₂ P.Built hs hs') :
    P.Paired Whatever (keepResult name hs) (keepResult name hs') :=
  .modify fun _ _ hp => { hp with results := .cons ⟨rfl, h⟩ hp.results }

theorem unindexed {p p' : Pass} (tag : String) (hp : P.State p p') :
    P.State { p with index := p.index.filter (·.1 != tag) }
      { p' with index := p'.index.filter (·.1 != tag) } := by
  refine { hp with index := List.rel_filter ?_ hp.index }
  rintro e e' ⟨hname, -⟩
  dsimp only
  rw [hname]

def Slots (P : Pairing) (e e' : Nat × Operand) : Prop := e'.1 = e.1 ∧ P.Operands e.2 e'.2

end Pairing

namespace Pairing.Lawful

variable {P : Pairing} (h : P.Lawful)
include h

section Nodes

variable {t t' : Tree} {x x' : NodeId}

theorem makeNode {tag : String} {type : NodeType} (settings : List (String × String))
    (ht : Tag.isTag tag = true) :
    P.Paired P.node (makeNode tag type settings) (makeNode tag type settings) := by
  intro p p' hp
  rw [makeNode_run, makeNode_run, h.editor hp.tree]
  split
  · obtain ⟨htree, hnode⟩ := h.addNode tag type settings hp.tree ht
    exact ⟨.ok hnode, {
      hp with
      tree := htree
      index := .cons ⟨rfl, .inl hnode⟩ hp.index
      used := .cons hnode hp.used
      created := congrArg (· + 1) hp.created }⟩
  · exact ⟨.error (.refl _), hp⟩

theorem removed (ht : P.tree t t') (hx : P.Known x x') :
    P.tree (t.removeNode x) (t'.removeNode x') := by
  rcases hx with hx | ⟨rfl, hg⟩
  · exact h.removeNode ht hx
  · unfold Tree.removeNode
    rw [if_pos hg, if_pos hg]
    exact ht

theorem nodeFor {tag : String} {type : NodeType} (settings : List (String × String))
    (ht : Tag.isTag tag = true) (hb : type.isBuilt = true) :
    P.Paired P.node (nodeFor tag type settings) (nodeFor tag type settings) := by
  intro p p' hp
  rw [nodeFor_run, nodeFor_run]
  rcases rel_cases (lookup_related hp.index tag) with ⟨hl, hl'⟩ | ⟨x, x', hl, hl', hx⟩
  · rw [hl, hl']
    exact h.makeNode settings ht p p' hp
  · rw [hl, hl']
    dsimp only
    rcases rel_cases (h.node? hp.tree hx) with ⟨hn, hn'⟩ | ⟨n, n', hn, hn', hnode⟩
    · rw [hn, hn']
      exact h.makeNode settings ht _ _ (unindexed tag hp)
    · rw [hn, hn']
      dsimp only
      rw [hnode.type]
      by_cases htype : n.type = type
      · rw [if_pos htype, if_pos htype]
        rcases hx with hx | ⟨rfl, hg⟩
        · exact ⟨.ok hx, {
            hp with
            tree := h.touch (.settings settings) hp.tree hx
            used := .cons hx hp.used }⟩
        · -- a group node is of no type that is built
          have := h.group_type hp.tree hg hn
          rw [htype, hb] at this
          cases this
      · rw [if_neg htype, if_neg htype]
        exact h.makeNode settings ht _ _
          { unindexed tag hp with tree := h.removed hp.tree hx }

theorem activate {x x' : NodeId} (hx : P.node x x') :
    P.Paired Whatever (activate x) (activate x') :=
  .modifyTree fun _ _ ht => h.setActive ht hx

theorem output? (ht : P.tree t t') (hx : P.Known x x') (slot : Nat) :
    Option.Rel P.Sockets ((t.node? x).bind (·.outputs[slot]?))
      ((t'.node? x').bind (·.outputs[slot]?)) :=
  rel_bind (h.node? ht hx) fun _ _ hn => forall₂_getElem? hn.outputs slot

theorem readOutput {x x' : NodeId} (hx : P.node x x') (slot : Nat) (kind : Kind) :
    P.Paired P.Built (readOutput x slot kind) (readOutput x' slot kind) := by
  refine .bind .getTree fun t t' ht => ?_
  rcases rel_cases (h.output? ht (.inl hx) slot) with ⟨ho, ho'⟩ | ⟨o, o', ho, ho', hs⟩
  · rw [ho, ho']
    exact .throw (.refl _)
  · rw [ho, ho']
    intro p p' hp
    have href : P.Ref ⟨x, o.id⟩ ⟨x', o'.id⟩ := ⟨.inl hx, hs.id⟩
    obtain ⟨hr, hq⟩ := paired_newHandle kind none href p p' hp
    refine ⟨?_, hq⟩
    cases hr with
    | ok hh => exact .ok ⟨hh, hx⟩

theorem wire {x x' : NodeId} {o o' : Operand} (hx : P.node x x') (slot : Nat)
    (ho : P.Operands o o') : P.Paired Whatever (wire x slot o) (wire x' slot o') := by
  refine .bind .getTree fun t t' ht => ?_
  rcases rel_cases (rel_bind (h.node? ht (.inl hx)) fun _ _ hn => forall₂_getElem? hn.inputs slot)
    with ⟨hi, hi'⟩ | ⟨input, input', hi, hi', hs⟩
  · rw [hi, hi']
    exact .throw (.refl _)
  · rw [hi, hi']
    cases ho with
    | handle hh =>
      have link : P.Paired Whatever
          (do if (t.feedOf? input.id).map (·.source) ≠ some _ then
                edit .link (Tree.reconnect _ ⟨x, input.id⟩))
          (do if (t'.feedOf? input'.id).map (·.source) ≠ some _ then
                edit .link (Tree.reconnect _ ⟨x', input'.id⟩)) :=
        .ite (not_congr (h.feed ht hs.id hh.socket))
          (fun _ => h.reconnect hh.socket ⟨.inl hx, hs.id⟩) fun _ => .pure trivial
      dsimp only
      refine .ite (by rw [hh.kind]) (fun _ => ?_) fun _ => link
      rw [Handle.boundaryName, Handle.boundaryName, hh.boundary]
      exact .throw_bind (.refl _)
    | literal l =>
      dsimp only
      rw [hs.type]
      cases l.toValue?.bind (·.convert input.type) with
      | none => exact .throw (.refl _)
      | some value =>
        refine .bind (.modifyTree fun _ _ ht => h.disconnect ht hs.id) fun _ _ _ => ?_
        refine .ite (by rw [hs.default]) (fun _ => ?_) fun _ => .pure trivial
        exact .modifyTree fun _ _ ht => h.touch (.input slot value) ht hx

theorem wireAll {x x' : NodeId} {inputs inputs' : List (Nat × Operand)} (hx : P.node x x')
    (hi : List.Forall₂ P.Slots inputs inputs') :
    P.Paired Whatever (wireAll x inputs) (wireAll x' inputs') := by
  induction hi with
  | nil => exact .pure trivial
  | @cons e e' _ _ he _ ih =>
    obtain ⟨slot, o⟩ := e
    obtain ⟨slot', o'⟩ := e'
    obtain ⟨rfl, ho⟩ := he
    exact .bind (h.wire hx _ ho) fun _ _ _ => ih

theorem groupPosition (ht : P.tree t t') (hg : x.isGroup = true) :
    (t'.node? x).map (·.position) = (t.node? x).map (·.position) := by
  rcases rel_cases (h.node? ht (.inr ⟨rfl, hg⟩)) with ⟨hn, hn'⟩ | ⟨n, n', hn, hn', hnode⟩
  · rw [hn, hn']
  · rw [hn, hn']
    exact congrArg some hnode.position

theorem hold {y y' : NodeId} (x : Numeric.Double) (hy : P.node y y') :
    P.Paired Whatever (modify (held y x) : PassM PUnit) (modify (held y' x) : PassM PUnit) := by
  refine .modify fun p p' hp => ?_
  have hplace : constantPosition p'.tree p'.constants = constantPosition p.tree p.constants := by
    rw [constantPosition, constantPosition, h.groupPosition hp.tree rfl, hp.constants]
  refine { hp with tree := ?_, constants := congrArg (· + 1) hp.constants }
  show P.tree _ (p'.tree.modifyNode y' (Touch.output _ (constantPosition p'.tree _)).apply)
  rw [hplace]
  exact h.touch _ hp.tree hy

theorem frame {tag label : String} {members members' : List NodeId}
    (hm : List.Forall₂ P.node members members') :
    P.Paired Whatever (frame tag label members) (frame tag label members') := by
  intro p p' hp
  have hbuilt : NodeType.frame.isBuilt = true := rfl
  obtain ⟨ho, hq⟩ := h.nodeFor [] (Tag.isTag_frame tag) hbuilt p p' hp
  rcases hr : Pass.nodeFor (Tag.frameMark ++ tag) .frame [] p with ⟨r, q⟩
  rcases hr' : Pass.nodeFor (Tag.frameMark ++ tag) .frame [] p' with ⟨r', q'⟩
  rw [hr, hr'] at ho hq
  cases ho with
  | ok hx =>
    rw [frame_run hr, frame_run hr']
    exact ⟨.ok trivial, { hq with tree := h.framed label hq.tree hx hm }⟩
  | error hs =>
    unfold Pass.frame
    rw [bind_of_error hr, bind_of_error hr']
    exact ⟨.error hs, hq⟩

end Nodes

section Boundary

theorem assembler {s s' : Socket} (side : Side) (l : Literal) (hs : P.Sockets s s') :
    P.Paired P.node (assembler side s l) (assembler side s' l) := by
  unfold Pass.assembler
  rw [hs.type]
  cases ha : assembly? l s.type with
  | none => exact .throw (.refl _)
  | some plan =>
    obtain ⟨word, type, numbers⟩ := plan
    refine .bind .getTree fun t t' ht => ?_
    dsimp only
    rw [h.boundaryIndex ht hs.id]
    have hb := isBuilt_of_assembly? ha
    have hslots : ∀ (numbers : List Numeric.Single), List.Forall₂ P.Slots
        (numbers.mapIdx fun slot x => (slot, .scalar x))
        (numbers.mapIdx fun slot x => (slot, .scalar x)) :=
      fun numbers => List.forall₂_same.mpr fun e he => by
        obtain ⟨i, hi, rfl⟩ := List.mem_mapIdx.mp he
        exact ⟨rfl, .literal _⟩
    refine .bind (h.nodeFor _ (Tag.isTag_default _) hb) fun x x' hx => ?_
    refine .bind (h.wireAll hx (hslots numbers)) fun _ _ _ => ?_
    refine .bind (.modifyTree fun t t' ht => ?_) fun _ _ _ => .pure hx
    have hplace : ∀ place, assemblerPosition t' side place = assemblerPosition t side place := by
      intro place
      rw [assemblerPosition, assemblerPosition, h.groupPosition ht (by cases side <;> rfl)]
    rw [hplace]
    exact h.touch (.move _) ht hx

theorem storeLiteral {x x' : SocketId} (side : Side) (l : Literal) (hx : P.socket x x') :
    P.Paired Whatever (storeLiteral side x l) (storeLiteral side x' l) := by
  refine .bind .getTree fun t t' ht => ?_
  rcases rel_cases (h.boundarySocket ht hx) with ⟨hs, hs'⟩ | ⟨s, s', hs, hs', hsocket⟩
  · rw [hs, hs']
    exact .throw ⟨rfl, rfl⟩
  rw [hs, hs']
  dsimp only
  rw [hsocket.type]
  refine .ite Iff.rfl (fun _ => ?_) fun _ => ?_
  · cases l.toValue? with
    | none => exact .throw (.refl _)
    | some value =>
      have store := (h.setSocketDefault value hx).discard
      refine .ite Iff.rfl (fun _ => ?_) fun _ => store
      exact .bind (.modifyTree fun _ _ ht => h.disconnect ht hx) fun _ _ _ => store
  · refine .bind (h.assembler side l hsocket) fun y y' hy => ?_
    refine .ite Iff.rfl (fun _ => ?_) fun _ => .pure trivial
    refine .bind .getTree fun t t' ht => ?_
    rcases rel_cases (h.output? ht (.inl hy) 0) with ⟨ho, ho'⟩ | ⟨o, o', ho, ho', hout⟩
    · rw [ho, ho']
      exact .throw (.refl _)
    · rw [ho, ho']
      have hr : P.Ref ⟨y, o.id⟩ ⟨y', o'.id⟩ := ⟨.inl hy, hout.id⟩
      refine .ite (not_congr (h.feed ht hx hr)) (fun _ => ?_) fun _ => .pure trivial
      exact h.reconnect hr ⟨.inr ⟨rfl, rfl⟩, hx⟩

theorem input (name : String) (kind : Kind) :
    P.Paired P.Handles (input name kind none) (input name kind none) := by
  unfold Pass.input
  cases kind.socketType? with
  | none => exact .throw (.refl _)
  | some type =>
    refine .bind (h.socketFor _ _ _) fun x x' hx => ?_
    exact paired_newHandle _ _ ⟨.inr ⟨rfl, rfl⟩, hx⟩

theorem output (name : String) (kind : Kind) :
    P.Paired P.Handles (output name kind) (output name kind) := by
  unfold Pass.output
  cases kind.socketType? with
  | none => exact .throw (.refl _)
  | some type =>
    refine .bind (h.socketFor _ _ _) fun x x' hx => ?_
    exact paired_newHandle _ _ ⟨.inr ⟨rfl, rfl⟩, hx⟩

theorem assign {target target' : Handle} {value value' : Operand} (ht : P.Handles target target')
    (hv : P.Operands value value') :
    P.Paired Whatever (assign target value) (assign target' value') := by
  unfold Pass.assign
  dsimp only
  rw [ht.kind]
  refine .ite Iff.rfl (fun _ => .throw_bind (.refl _)) fun _ => ?_
  cases hv with
  | handle hh =>
    dsimp only
    rw [hh.kind, Handle.boundaryName, Handle.boundaryName, hh.boundary]
    refine .ite Iff.rfl (fun _ => .throw_bind (.refl _)) fun _ => ?_
    refine .bind .getTree fun t t' htree => ?_
    refine .ite (not_congr (h.feed htree ht.socket.socket hh.socket)) (fun _ => ?_)
      fun _ => .pure trivial
    exact h.reconnect hh.socket ht.socket
  | literal l => exact h.storeLiteral _ l ht.socket.socket

theorem settleOutput : P.Paired Whatever settleOutput settleOutput := by
  rw [settleOutput_eq]
  exact .modifyTree fun _ _ ht => h.besideActive ht

theorem mem_used {p p' : Pass} (hp : P.State p p') {x x' : NodeId} (hx : P.Known x x') :
    x ∈ p.used ↔ x' ∈ p'.used := by
  rcases hx with hx | ⟨rfl, hg⟩
  · exact List.rel_mem h.unique hx hp.used
  · have apart : ∀ y y', P.node y y' → x' ≠ y ∧ x' ≠ y' := by
      intro y y' hy
      constructor <;>
      · rintro rfl
        simp [h.not_group hy] at hg
    have out : ∀ {l l'}, List.Forall₂ P.node l l' → x' ∉ l ∧ x' ∉ l' := by
      intro l l' hl
      induction hl with
      | nil => simp
      | cons hy _ ih => simp [ih, apart _ _ hy]
    simp [out hp.used]

theorem stale {p p' : Pass} (hp : P.State p p') : List.Forall₂ P.Known (stale p) (stale p') := by
  have split : ∀ q : Pass, Pass.stale q =
      ((q.tree.nodes.filter fun n => Tag.isTag n.name).filter fun n => !q.used.contains n.id).map
        (·.id) := by
    intro q
    rw [List.filter_filter, Pass.stale]
    congr 2
    funext n
    exact Bool.and_comm _ _
  rw [split, split, List.forall₂_map_left_iff, List.forall₂_map_right_iff]
  refine (List.rel_filter ?_ (h.tagged hp.tree)).imp fun _ _ hn => hn.2
  rintro n n' ⟨-, hn⟩
  simpa using not_congr (h.mem_used hp hn)

theorem dropStale : P.Paired Eq dropStale dropStale := by
  refine .bind .get fun p p' hp => ?_
  have hs := h.stale hp
  refine .bind (.modifyTree fun t t' ht => ?_) fun _ _ _ => .pure hs.length_eq
  refine List.rel_foldl (P := P.tree) (R := P.Known) ?_ ht hs
  exact fun _ _ ht _ _ hx => h.removed ht hx

theorem generatedCount {t t' : Tree} (ht : P.tree t t') : t'.generatedCount = t.generatedCount := by
  rw [Tree.generatedCount, Tree.generatedCount, List.countP_eq_length_filter,
    List.countP_eq_length_filter]
  exact (h.tagged ht).length_eq.symm

end Boundary

end Pairing.Lawful

end Pass

end FormulaGraph
