import FormulaGraph.Proofs.Pass.Blueprints
import FormulaGraph.Proofs.Pass.Growth

/-!
The steps of a pass that give results: building a node by a plan, splitting a
vector, placing a constant, and applying a function once for each tag.
-/

namespace FormulaGraph

open Run

namespace Pass

variable {p p' : Pass} {tag : String} {id : NodeId}
  {slot : Nat} {kind : Kind}

theorem le_bump (counts : HandleCounts) (kind k : Kind) :
    counts.get k ≤ (counts.bump kind).get k := by
  cases kind <;> cases k <;> simp [HandleCounts.bump, HandleCounts.get]

theorem lt_bump (counts : HandleCounts) (kind : Kind) :
    counts.get kind < (counts.bump kind).get kind := by
  cases kind <;> exact Nat.lt_succ_self _

theorem readOutput_run (id : NodeId) (slot : Nat) (kind : Kind) : readOutput id slot kind p =
    match (p.tree.node? id).bind (·.outputs[slot]?) with
    | none => (.error (.missingOutput slot), p)
    | some out =>
      (.ok ⟨kind, p.counts.get kind, ⟨id, out.id⟩, none⟩,
        { p with counts := p.counts.bump kind }) := by
  unfold readOutput
  rw [bind_of_ok (rfl : getTree p = (.ok p.tree, p))]
  cases (p.tree.node? id).bind (·.outputs[slot]?) <;> rfl

theorem readOutput_cases {g : Handle}
    (h : readOutput id slot kind p = (.ok g, p')) : ∃ n out, p.tree.node? id = some n ∧
      n.outputs[slot]? = some out ∧ g = ⟨kind, p.counts.get kind, ⟨id, out.id⟩, none⟩ ∧
      p' = { p with counts := p.counts.bump kind } := by
  rw [readOutput_run] at h
  cases hb : (p.tree.node? id).bind (·.outputs[slot]?) with
  | none =>
    rw [hb] at h
    cases h
  | some out =>
    rw [hb] at h
    cases h
    obtain ⟨n, hn, hout⟩ := Option.bind_eq_some_iff.mp hb
    exact ⟨n, out, hn, hout, rfl, rfl⟩

theorem readOutput_of_node {n : Node} {out : Socket}
    (hn : p.tree.node? id = some n) (ho : n.outputs[slot]? = some out) :
    readOutput id slot kind p = (.ok ⟨kind, p.counts.get kind, ⟨id, out.id⟩, none⟩,
      { p with counts := p.counts.bump kind }) := by
  rw [readOutput_run, hn]
  dsimp only [Option.bind_some]
  rw [ho]

inductive Tapped (id : NodeId) (n : Node) :
    HandleCounts → List (Nat × Kind) → List Handle → HandleCounts → Prop where
  | nil {counts : HandleCounts} : Tapped id n counts [] [] counts
  | cons {counts counts' : HandleCounts} {slot : Nat} {kind : Kind} {out : Socket}
      {taps : List (Nat × Kind)} {handles : List Handle} (output : n.outputs[slot]? = some out)
      (rest : Tapped id n (counts.bump kind) taps handles counts') :
      Tapped id n counts ((slot, kind) :: taps)
        (⟨kind, counts.get kind, ⟨id, out.id⟩, none⟩ :: handles) counts'

namespace Tapped

variable {n : Node} {counts counts' : HandleCounts} {taps : List (Nat × Kind)}
  {handles : List Handle}

theorem exists_of_outputs (counts : HandleCounts)
    (h : ∀ e ∈ taps, ∃ out, n.outputs[e.1]? = some out) :
    ∃ handles counts', Tapped id n counts taps handles counts' := by
  induction taps generalizing counts with
  | nil => exact ⟨[], counts, .nil⟩
  | cons e taps ih =>
    rw [List.forall_mem_cons] at h
    obtain ⟨out, hout⟩ := h.1
    obtain ⟨handles, counts', hrest⟩ := ih (counts.bump e.2) h.2
    exact ⟨_, counts', .cons hout hrest⟩

variable (h : Tapped id n counts taps handles counts')
include h

theorem of_outputs {m : Node} (ho : m.outputs = n.outputs) :
    Tapped id m counts taps handles counts' := by
  induction h with
  | nil => exact .nil
  | cons output _ ih => exact .cons (ho ▸ output) ih

theorem kinds : handles.map (·.kind) = taps.map Prod.snd := by
  induction h with
  | nil => rfl
  | cons _ _ ih => rw [List.map_cons, List.map_cons, ih]

theorem length_eq : handles.length = taps.length := by
  simpa using congrArg List.length h.kinds

theorem le (k : Kind) : counts.get k ≤ counts'.get k := by
  induction h with
  | nil => exact Nat.le_refl _
  | cons _ _ ih => exact Nat.le_trans (le_bump _ _ _) ih

theorem on : ∀ g ∈ handles, g.node = id := by
  induction h with
  | nil => exact nofun
  | cons _ _ ih => exact List.forall_mem_cons.mpr ⟨rfl, ih⟩

theorem fresh : ∀ g ∈ handles, counts.get g.kind ≤ g.number ∧ g.number < counts'.get g.kind := by
  induction h with
  | nil => exact nofun
  | cons _ rest ih =>
    refine List.forall_mem_cons.mpr ⟨⟨Nat.le_refl _, ?_⟩, fun g hg => ?_⟩
    · exact Nat.lt_of_lt_of_le (lt_bump _ _) (rest.le _)
    · exact ⟨Nat.le_trans (le_bump _ _ _) (ih g hg).1, (ih g hg).2⟩

theorem apart : ∀ g ∈ handles, ∀ g' ∈ handles, g.kind = g'.kind → g.number = g'.number →
    g = g' := by
  induction h with
  | nil => exact nofun
  | @cons counts _ _ kind _ _ handles _ rest ih =>
    have later : ∀ g ∈ handles, g.kind = kind → g.number ≠ counts.get kind := by
      intro g hg hk heq
      have hle := (rest.fresh g hg).1
      rw [hk, heq] at hle
      exact absurd (lt_bump counts kind) (Nat.not_lt.mpr hle)
    intro g hg g' hg' hkind hnumber
    rcases List.mem_cons.mp hg with rfl | hg <;> rcases List.mem_cons.mp hg' with rfl | hg'
    · rfl
    · exact absurd hnumber.symm (later g' hg' hkind.symm)
    · exact absurd hnumber (later g hg hkind)
    · exact ih g hg g' hg' hkind hnumber

end Tapped

/-- A computation that gives handles on outputs of a node and counts them. -/
structure Taps {α : Type} (read : PassM α) (list : α → List Handle) (id : NodeId)
    (taps : List (Nat × Kind)) : Prop where
  run : ∀ {p n a p'}, p.tree.node? id = some n → (read p = (.ok a, p') ↔
    ∃ counts, Tapped id n p.counts taps (list a) counts ∧ p' = { p with counts })
  onto : ∀ {handles : List Handle}, handles.length = taps.length → ∃ a, list a = handles

theorem taps_readOutput : Taps (readOutput id slot kind) ([·]) id [(slot, kind)] where
  run := by
    intro p n g p' hn
    constructor
    · intro h
      obtain ⟨m, out, hm, hout, rfl, rfl⟩ := readOutput_cases h
      cases hn.symm.trans hm
      exact ⟨_, .cons hout .nil, rfl⟩
    · rintro ⟨_, htapped, rfl⟩
      cases htapped with
      | cons output rest =>
        cases rest
        exact readOutput_of_node hn output
  onto := by
    intro handles h
    obtain ⟨g, rfl⟩ := List.length_eq_one_iff.mp h
    exact ⟨g, rfl⟩

def readParts (id : NodeId) : PassM (Handle × Handle × Handle) := do
  let x ← readOutput id 0 .scalar
  let y ← readOutput id 1 .scalar
  let z ← readOutput id 2 .scalar
  return (x, y, z)

abbrev listed (parts : Handle × Handle × Handle) : List Handle := [parts.1, parts.2.1, parts.2.2]

def partTaps : List (Nat × Kind) := [(0, .scalar), (1, .scalar), (2, .scalar)]

theorem taps_readParts : Taps (readParts id) listed id partTaps where
  run := by
    rintro p n ⟨x, y, z⟩ p' hn
    constructor
    · intro h
      obtain ⟨x', p₁, hx, h⟩ := bind_eq_ok.mp h
      obtain ⟨y', p₂, hy, h⟩ := bind_eq_ok.mp h
      obtain ⟨z', p₃, hz, h⟩ := bind_eq_ok.mp h
      cases h
      obtain ⟨_, ox, hox, hx, rfl, rfl⟩ := readOutput_cases hx
      obtain ⟨_, oy, hoy, hy, rfl, rfl⟩ := readOutput_cases hy
      obtain ⟨_, oz, hoz, hz, rfl, rfl⟩ := readOutput_cases hz
      cases hn.symm.trans hox
      cases hn.symm.trans hoy
      cases hn.symm.trans hoz
      exact ⟨_, .cons hx (.cons hy (.cons hz .nil)), rfl⟩
    · rintro ⟨_, htapped, rfl⟩
      obtain _ | ⟨hx, _ | ⟨hy, _ | ⟨hz, _ | _⟩⟩⟩ := htapped
      exact bind_eq_ok.mpr ⟨_, _, readOutput_of_node hn hx, bind_eq_ok.mpr ⟨_, _,
        readOutput_of_node hn hy, bind_eq_ok.mpr ⟨_, _, readOutput_of_node hn hz, rfl⟩⟩⟩
  onto := by
    intro handles h
    obtain ⟨x, y, z, rfl⟩ := List.length_eq_three.mp h
    exact ⟨(x, y, z), rfl⟩

theorem not_mem_keys (h : p.results.lookup tag = none) : tag ∉ p.keys := by
  intro hm
  obtain ⟨e, he, rfl⟩ := List.mem_map.mp hm
  have := List.lookup_eq_none_iff.mp h e he
  simp at this

theorem mem_of_lookup {α : Type} {l : List (String × α)} {key : String} {value : α}
    (h : l.lookup key = some value) : (key, value) ∈ l := by
  obtain ⟨l₁, l₂, rfl, -⟩ := List.lookup_eq_some_iff.mp h
  simp

theorem lookup_results (hp : p.Sound) (tag : String) : p.results.lookup tag = none ∨
    ∃ h l, p.results.lookup tag = some (h :: l) ∧ (tag, h :: l) ∈ p.results := by
  cases hr : p.results.lookup tag with
  | none => exact .inl rfl
  | some handles =>
    have hm := mem_of_lookup hr
    cases handles with
    | nil => exact absurd rfl (hp.entries _ hm).1
    | cons h l => exact .inr ⟨h, l, rfl, hm⟩

end Pass

namespace Tag

variable {tag : String}

def IsCall (tag : String) : Prop :=
  ∃ (f : Function) (markers : List String), tag = operation f.name markers

theorem IsCall.isTag (h : IsCall tag) : isTag tag = true := by
  obtain ⟨f, ms, rfl⟩ := h
  exact isTag_operation _ _

theorem IsCall.letter (h : IsCall tag) : letter? tag ≠ some 'G' := by
  obtain ⟨f, ms, rfl⟩ := h
  rw [letter?_operation]
  decide

theorem IsCall.not_isSeparation (h : IsCall tag) : ¬IsSeparation tag := by
  obtain ⟨f, ms, rfl⟩ := h
  exact Pass.not_isSeparation f ms

end Tag

/-- A plan that names no setting and no input twice. -/
structure NodePlan.Proper (plan : NodePlan) : Prop where
  settings : (plan.settings.map Prod.fst).Nodup
  inputs : (plan.inputs.map Prod.fst).Nodup

namespace Pass

variable {α : Type} {args : List Operand} {l : List Handle} {f : Function} {v : Operand}
  {x : Double} {p p' p₁ q : Pass} {tag : String} {plan : NodePlan} {g : Handle} {id : NodeId}
  {y z h : Handle} {construct : Construction}

theorem result?_run (tag : String) : result? tag p = (.ok (p.results.lookup tag), p) := rfl

/-- How the node of a new tag is drawn: it is got and made up, and handles on its
outputs are given under the tag. -/
structure Sketch (α : Type) where
  tag : String
  type : NodeType
  settings : List (String × String)
  make : NodeId → PassM Unit
  read : NodeId → PassM α
  list : α → List Handle
  taps : List (Nat × Kind)

structure MakesUp (id : NodeId) (p q : Pass) : Prop where
  rest : q = { p with tree := q.tree, constants := q.constants }
  isLocal : p.tree.Local id q.tree
  sane : q.tree.Sane
  active : q.tree.active = p.tree.active ∨ q.tree.active = some id
  properties : ∀ n m, p.tree.node? id = some n → q.tree.node? id = some m →
    m.properties = n.properties

namespace Sketch

def draw (s : Sketch α) : PassM α := do
  let id ← nodeFor s.tag s.type s.settings
  s.make id
  let a ← s.read id
  keepResult s.tag (s.list a)
  return a

structure Valid (s : Sketch α) : Prop where
  isTag : Tag.isTag s.tag = true
  letter : Tag.letter? s.tag ≠ some 'G'
  settings : (s.settings.map Prod.fst).Nodup
  make : ∀ {p id p₁ q}, Opened s.tag s.type s.settings p id p₁ → s.make id p₁ = (.ok (), q) →
    MakesUp id p₁ q
  read : ∀ id, Taps (s.read id) s.list id s.taps
  taps : s.taps ≠ []
  parts : Tag.IsSeparation s.tag → s.taps.length = 3

structure Draft (s : Sketch α) (p : Pass) (id : NodeId) (p₁ q : Pass) (n : Node) (a : α)
    (p' : Pass) : Prop where
  got : nodeFor s.tag s.type s.settings p = (.ok id, p₁)
  opened : Opened s.tag s.type s.settings p id p₁
  made : s.make id p₁ = (.ok (), q)
  makesUp : MakesUp id p₁ q
  node : p'.tree.node? id = some n
  name : n.name = s.tag
  type : n.type = s.type
  has : n.Has s.settings
  tapped : Tapped id n p.counts s.taps (s.list a) p'.counts
  rest : p' = { q with counts := p'.counts, results := (s.tag, s.list a) :: q.results }

structure Drawn (s : Sketch α) (p : Pass) (id : NodeId) (p₁ q : Pass) (n : Node) (a : α)
    (p' : Pass) : Prop extends s.Draft p id p₁ q n a p' where
  closes : Closes s.tag p id (s.list a) p'

variable {s : Sketch α} {n : Node} {a : α}

theorem Valid.draft (hs : s.Valid) (hopen : ∀ {id p₁}, nodeFor s.tag s.type s.settings p =
      (.ok id, p₁) → Opened s.tag s.type s.settings p id p₁)
    (h : s.draw p = (.ok a, p')) : ∃ id p₁ q n, s.Draft p id p₁ q n a p' := by
  obtain ⟨id, p₁, h₁, h⟩ := bind_eq_ok.mp h
  obtain ⟨_, q, h₂, h⟩ := bind_eq_ok.mp h
  obtain ⟨a', q', h₃, h⟩ := bind_eq_ok.mp h
  cases h
  have ho := hopen h₁
  have hmade := hs.make ho h₂
  obtain ⟨n₁, hn₁, hname, htype, hhas⟩ := ho.node
  obtain ⟨n, hn, -, hname', htype'⟩ := hmade.isLocal.own n₁ hn₁
  obtain ⟨counts, htapped, rfl⟩ := ((hs.read id).run hn).mp h₃
  have hcounts : q.counts = p.counts := by
    rw [hmade.rest]
    exact ho.rest.1
  refine ⟨id, p₁, q, n, h₁, ho, h₂, hmade, hn, hname'.trans hname, htype'.trans htype,
    fun e he => ?_, hcounts ▸ htapped, rfl⟩
  rw [Node.property?, hmade.properties n₁ n hn₁ hn]
  exact hhas e he

theorem Valid.draw_of_outputs (hs : s.Valid)
    (h₁ : nodeFor s.tag s.type s.settings p = (.ok id, p₁)) (h₂ : s.make id p₁ = (.ok (), q))
    (hn : q.tree.node? id = some n) (ho : ∀ e ∈ s.taps, ∃ out, n.outputs[e.1]? = some out) :
    ∃ a counts, Tapped id n q.counts s.taps (s.list a) counts ∧ s.draw p =
      (.ok a, { q with counts, results := (s.tag, s.list a) :: q.results }) := by
  obtain ⟨handles, counts, htapped⟩ := Tapped.exists_of_outputs q.counts ho
  obtain ⟨a, rfl⟩ := (hs.read id).onto htapped.length_eq
  have hread := ((hs.read id).run hn).mpr ⟨counts, htapped, rfl⟩
  exact ⟨a, counts, htapped, by rw [draw, bind_of_ok h₁, bind_of_ok h₂, bind_of_ok hread]; rfl⟩

theorem Draft.tree (hd : s.Draft p id p₁ q n a p') : p'.tree = q.tree := by rw [hd.rest]

theorem Draft.constants (hd : s.Draft p id p₁ q n a p') : p'.constants = q.constants := by
  rw [hd.rest]

theorem Draft.ne_nil (hd : s.Draft p id p₁ q n a p') (hs : s.Valid) : s.list a ≠ [] :=
  List.ne_nil_of_length_pos (hd.tapped.length_eq ▸ List.length_pos_of_ne_nil hs.taps)

theorem Valid.drawn (hs : s.Valid) (hp : p.Sound) (hr : p.results.lookup s.tag = none)
    (h : s.draw p = (.ok a, p')) : ∃ id p₁ q n, s.Drawn p id p₁ q n a p' := by
  obtain ⟨id, p₁, q, n, hd⟩ := hs.draft (hp.opened hs.isTag hs.settings) h
  have hmade := hd.makesUp
  have hrest : p' = { p₁ with
      tree := q.tree
      counts := p'.counts
      results := (s.tag, s.list a) :: p₁.results
      constants := q.constants } := hd.rest.trans (by rw [hmade.rest])
  refine ⟨id, p₁, q, n, hd, ?_⟩
  rw [hrest]
  exact settle p'.counts q.constants (s.list a) hp hs.isTag (not_mem_keys hr) hs.letter hd.opened
    hmade.isLocal hmade.sane hmade.active (hd.ne_nil hs) hd.tapped.on
    (fun hsep => hd.tapped.length_eq.trans (hs.parts hsep)) hd.tapped.le

theorem Drawn.settled (h : s.Drawn p id p₁ q n a p') (hs : s.Valid) : p'.Settled id := by
  obtain ⟨g, hg⟩ := List.exists_mem_of_ne_nil _ (h.ne_nil hs)
  rw [← h.tapped.on g hg]
  exact .inr ⟨(s.tag, s.list a), by rw [h.closes.results]; exact List.mem_cons_self, g, hg, rfl⟩

end Sketch

def wiring (inputs : List (Nat × Operand)) (id : NodeId) : PassM Unit := do
  activate id
  wireAll id inputs

theorem wiring_spec {type : NodeType} {settings : List (String × String)}
    {inputs : List (Nat × Operand)} (ho : Opened tag type settings p id p₁)
    (hd : (inputs.map Prod.fst).Nodup) (h : wiring inputs id p₁ = (.ok (), q)) :
    MakesUp id p₁ q ∧ q.tree.active = some id ∧ q.constants = p.constants ∧
      q.tree.FedAll id inputs ∧
      Tree.Wires (· ∈ inputs.map Prod.fst) id (p₁.tree.setActive (some id)) q.tree := by
  obtain ⟨n₁, hn₁, -⟩ := ho.node
  obtain ⟨t, rfl, hsane, hw, hfed⟩ := wireAll_spec (ho.sane.setActive (some id)) hd h
  have hact : t.active = some id := by
    rw [hw.active]
    show (some id).filter p₁.tree.contains = some id
    have : p₁.tree.contains id = true := Tree.contains_iff.mpr ⟨n₁, hn₁⟩
    simp [this]
  refine ⟨⟨rfl, (Tree.Local.setActive _).trans hw.toLocal, hsane, .inr hact, fun n m hn hm => ?_⟩,
    hact, ho.rest.2.2.2, hfed, hw⟩
  obtain ⟨m', hm', hrewired⟩ := hw.rewired n hn
  cases hm.symm.trans hm'
  rw [hrewired.shell]

namespace Sketch

/-- A node that is wired by a plan, with handles on some of its outputs. -/
def wired (tag : String) (plan : NodePlan) (read : NodeId → PassM α) (list : α → List Handle)
    (taps : List (Nat × Kind)) : Sketch α :=
  ⟨tag, plan.type, plan.settings, wiring plan.inputs, read, list, taps⟩

def ofPlan (tag : String) (plan : NodePlan) : Sketch Handle :=
  wired tag plan (readOutput · plan.output plan.kind) ([·]) [(plan.output, plan.kind)]

def split (tag : String) (v : Operand) : Sketch (Handle × Handle × Handle) :=
  wired tag (Blueprint.separate 0 v).plan readParts listed partTaps

variable {read : NodeId → PassM α} {list : α → List Handle} {taps : List (Nat × Kind)}

theorem valid_ofPlan (ht : Tag.IsCall tag) (hplan : plan.Proper) : (ofPlan tag plan).Valid where
  isTag := ht.isTag
  letter := ht.letter
  settings := hplan.settings
  make ho h := (wiring_spec ho hplan.inputs h).1
  read _ := taps_readOutput
  taps := by simp [ofPlan, wired]
  parts hsep := absurd hsep ht.not_isSeparation

theorem valid_split (ht : Tag.IsSeparation tag) : (split tag v).Valid where
  isTag := by
    obtain ⟨ms, rfl⟩ := ht
    exact Tag.isTag_operation _ _
  letter := by
    obtain ⟨ms, rfl⟩ := ht
    show Tag.letter? (Tag.operation _ _) ≠ _
    rw [Tag.letter?_operation]
    decide
  settings := List.nodup_nil
  make ho h := (wiring_spec ho (by simp [Blueprint.separate, Blueprint.plan]) h).1
  read _ := taps_readParts
  taps := by simp [split, wired, partTaps]
  parts _ := rfl

/-- A node that was wired holds its operands. -/
theorem Draft.wires {n : Node} {a : α} (h : (wired tag plan read list taps).Draft p id p₁ q n a p')
    (hd : (plan.inputs.map Prod.fst).Nodup) : p'.tree.active = some id ∧
      p'.constants = p.constants ∧ p'.tree.FedAll id plan.inputs ∧
      Tree.Wires (· ∈ plan.inputs.map Prod.fst) id (p₁.tree.setActive (some id)) p'.tree := by
  obtain ⟨-, hactive, hconstants, hfed, hw⟩ := wiring_spec h.opened hd h.made
  rw [h.tree, h.constants]
  exact ⟨hactive, hconstants, hfed, hw⟩

end Sketch

theorem build_of_new (h : p.results.lookup tag = none) :
    build tag plan p = (Sketch.ofPlan tag plan).draw p := by
  unfold build Sketch.draw Sketch.ofPlan Sketch.wired wiring
  rw [bind_of_ok (result?_run tag), h]
  simp only [bind_assoc]

theorem build_of_known (h : p.results.lookup tag = some (g :: l)) :
    build tag plan p = (.ok g, p) := by
  unfold build
  rw [bind_of_ok (result?_run tag), h]
  rfl

theorem literals_le_markers (k : Nat) (operands : List Operand) : k ≤ (markers k operands).2 := by
  induction operands generalizing k with
  | nil => exact Nat.le_refl k
  | cons operand rest ih =>
    cases operand with
    | handle h => exact ih k
    | literal l => exact Nat.le_trans (Nat.le_succ k) (ih (k + 1))

theorem tag_run (op : String) (operands : List Operand) : Pass.tag op operands p =
    (.ok (Tag.operation op (markers p.literals operands).1),
      { p with literals := (markers p.literals operands).2 }) := rfl

theorem Sound.withLiterals (hp : p.Sound) (k : Nat) : ({ p with literals := k } : Pass).Sound :=
  ⟨hp.sane, hp.grouped, hp.found, hp.used, hp.settled, hp.entries, hp.active⟩

theorem Grows.withLiterals {k : Nat} (h : p.literals ≤ k) : Grows p { p with literals := k } :=
  { Grows.refl with literals := h }

theorem wireAll_singleton (id : NodeId) (slot : Nat) (operand : Operand) :
    wireAll id [(slot, operand)] = wire id slot operand :=
  bind_pure _

theorem separate_of_new
    (h : p.results.lookup (Tag.operation "sepaxyz" (markers p.literals [v]).1) = none) :
    separate v p = (Sketch.split (Tag.operation "sepaxyz" (markers p.literals [v]).1) v).draw
      { p with literals := (markers p.literals [v]).2 } := by
  unfold separate Sketch.draw Sketch.split Sketch.wired wiring readParts
  rw [bind_of_ok (tag_run _ _), bind_of_ok (result?_run _)]
  dsimp only [Blueprint.separate, Blueprint.plan]
  rw [h]
  simp only [wireAll_singleton, bind_assoc, pure_bind]

theorem separate_of_known {x : Handle}
    (h : p.results.lookup (Tag.operation "sepaxyz" (markers p.literals [v]).1) = some [x, y, z]) :
    separate v p = (.ok (x, y, z), { p with literals := (markers p.literals [v]).2 }) := by
  unfold separate
  rw [bind_of_ok (tag_run _ _), bind_of_ok (result?_run _)]
  dsimp only
  rw [h]
  rfl

theorem lookup_separation (hp : p.Sound) (ht : Tag.IsSeparation tag) :
    p.results.lookup tag = none ∨
      ∃ x y z, p.results.lookup tag = some [x, y, z] ∧ (tag, [x, y, z]) ∈ p.results := by
  rcases lookup_results hp tag with hr | ⟨g, l, hr, hmem⟩
  · exact .inl hr
  · have hlen := (hp.entries _ hmem).2.2 ht
    match l, hlen with
    | [y, z], _ => exact .inr ⟨g, y, z, hr, hmem⟩

/-- A settled handle kept under one more tag. -/
theorem Sound.keep (hp : p.Sound) (ht : Tag.IsCall tag) (hs : p.Settled h.node) :
    ({ p with results := (tag, [h]) :: p.results } : Pass).Sound where
  sane := hp.sane
  grouped := hp.grouped
  found := hp.found
  used := by
    intro id hid
    obtain ⟨n, hn, hi, hor⟩ := hp.used id hid
    exact ⟨n, hn, hi, hor.imp_left (List.mem_cons_of_mem _)⟩
  settled := by
    intro e he g hg
    have : p.Settled g.node := by
      rcases List.mem_cons.mp he with rfl | he
      · rw [List.mem_singleton.mp hg]
        exact hs
      · exact .inr ⟨e, he, g, hg, rfl⟩
    obtain hgroup | ⟨hu, n, hn, hname⟩ := settled_used hp this
    · exact .inl hgroup
    · exact .inr ⟨hu, n, hn, List.mem_cons_of_mem _ hname⟩
  entries := by
    intro e he
    rcases List.mem_cons.mp he with rfl | he
    · exact ⟨by simp, ht.letter, fun hc => absurd hc ht.not_isSeparation⟩
    · exact hp.entries e he
  active := hp.active

theorem Grows.keep (tag : String) (h : Handle) :
    Grows p { p with results := (tag, [h]) :: p.results } :=
  { Grows.refl with results := List.suffix_cons _ _ }

theorem arity_of_callFault? {editor : Editor} (h : callFault? editor f args = none) :
    f.signature.fault? args.length = none := by
  unfold callFault? at h
  cases hs : f.signature.fault? args.length with
  | none => rfl
  | some fault =>
    rw [hs] at h
    cases h

theorem applyBy_of_known
    (hr : p.results.lookup (Tag.operation f.name (markers p.literals args).1) = some (h :: l)) :
    applyBy construct f args p = (.ok h, { p with literals := (markers p.literals args).2 }) := by
  unfold applyBy
  rw [bind_of_ok (tag_run _ _), bind_of_ok (result?_run _)]
  dsimp only
  rw [hr]
  rfl

theorem applyBy_of_new
    (hr : p.results.lookup (Tag.operation f.name (markers p.literals args).1) = none) :
    applyBy construct f args p = (do
      let tag := Tag.operation f.name (markers p.literals args).1
      let handle ← construct f tag args
      keepResult tag [handle]
      return handle : PassM Handle) { p with literals := (markers p.literals args).2 } := by
  unfold applyBy
  rw [bind_of_ok (tag_run _ _), bind_of_ok (result?_run _)]
  dsimp only
  rw [hr]

theorem nodup_slotsFrom (first : Nat) (args : List Operand) :
    ((slotsFrom first args).map Prod.fst).Nodup := Blueprint.nodup_row first args

theorem mem_of_mem_slotsFrom {first : Nat} {e : Nat × Operand} (h : e ∈ slotsFrom first args) :
    e.2 ∈ args := by
  obtain ⟨i, hi, rfl⟩ := List.mem_mapIdx.mp h
  exact List.getElem_mem hi

open Numeric

/-- The node of a constant, with its number and in its place. -/
def numbering (x : Double) (position : Point) (n : Node) : Node :=
  { n.setOutputDefault 0 (.float x.toSingle) with position := position }

/-- Put a number into its node, and the node into its place. -/
def numberNode (x : Double) (id : NodeId) : PassM Unit :=
  modify fun p => { p with
    tree := p.tree.modifyNode id (numbering x (constantPosition p.tree p.constants))
    constants := p.constants + 1 }

def Sketch.number (x : Double) : Sketch Handle :=
  ⟨Tag.constantMark ++ x.text, .value, [], numberNode x, (readOutput · 0 .scalar), ([·]),
    [(0, .scalar)]⟩

theorem constant_of_new (h : p.results.lookup (Tag.constantMark ++ x.text) = none) :
    constant x p = (Sketch.number x).draw p := by
  unfold constant
  dsimp only
  rw [bind_of_ok (result?_run _), h]
  rfl

theorem constant_of_known (h : p.results.lookup (Tag.constantMark ++ x.text) = some (g :: l)) :
    constant x p = (.ok g, p) := by
  unfold constant
  dsimp only
  rw [bind_of_ok (result?_run _), h]
  rfl

theorem alike_numbering (x : Double) (position : Point) (n : Node) :
    (numbering x position n).Alike n := by
  obtain ⟨h₁, h₂, h₃, h₄⟩ := Node.alike_setOutputDefault n 0 (.float x.toSingle)
  exact ⟨h₁, h₂, h₃, h₄⟩

theorem node?_numbering {t : Tree} {n : Node} (hn : t.node? id = some n) (position : Point) :
    (t.modifyNode id (numbering x position)).node? id = some (numbering x position n) := by
  rw [Tree.node?_modifyNode (by intro n; rfl), hn]
  simp

theorem Sketch.valid_number (x : Double) : (Sketch.number x).Valid where
  isTag := Tag.isTag_constant x.text
  letter := by
    show Tag.letter? (Tag.constantMark ++ x.text) ≠ _
    rw [Tag.letter?_constant]
    decide
  settings := List.nodup_nil
  make := by
    rintro p id p₁ q ho ⟨⟩
    refine ⟨rfl, .modifyNode (fun _ => rfl) (alike_numbering x _) fun _ => ⟨rfl, rfl, rfl⟩,
      ho.sane.modifyNode (fun _ => rfl) (alike_numbering x _), .inl rfl, fun n m hn hm => ?_⟩
    cases (node?_numbering hn _).symm.trans hm
    rfl
  read _ := taps_readOutput
  taps := by simp [number]
  parts := by
    rintro ⟨ms, hms⟩
    have := congrArg Tag.letter? hms
    change Tag.letter? (Tag.constantMark ++ x.text) = _ at this
    rw [Tag.letter?_constant, Tag.letter?_operation] at this
    exact absurd this (by decide)

theorem mem_of_mem_dedupAdjacent {l : List NodeId} {m : NodeId} (h : m ∈ dedupAdjacent l) :
    m ∈ l := by
  fun_induction dedupAdjacent l with
  | case1 => exact h
  | case2 => exact h
  | case3 b rest ih => exact List.mem_cons_of_mem _ (ih h)
  | case4 a b rest _ ih =>
    rcases List.mem_cons.mp h with rfl | h
    · exact List.mem_cons_self
    · exact List.mem_cons_of_mem _ (ih h)

end Pass

end FormulaGraph
