import FormulaGraph.Proofs.Graph.Equipped
import FormulaGraph.Proofs.Graph.Places
import FormulaGraph.Proofs.Pass.Orderly

/-!
What a pass in progress can do, one move at a time: work on the node of one tag,
give handles under a tag, or edit the boundary. Operations may fail, so a tag
can have a node and no handles; but a tag that has given handles is not worked
on again. What a pass keeps all along follows from what each move keeps.
-/

namespace FormulaGraph

open Run Relation

variable {tag : String}

def NodeType.isFixed : NodeType → Bool
  | .separateXYZ | .combineXYZ => true
  | _ => false

/-- The nodes that calls of a function are built as. A minimum or maximum may be
one of numbers whatever its arguments are. -/
def Blueprint.IsFor (f : Function) (args : List Operand) (b : Blueprint Operand) : Prop :=
  Blueprint.native Operand.isVector f args = some b ∨
    (f = .min ∨ f = .max) ∧ ∃ op, b = .math op args

namespace Tag

def assembler (word : String) (side : Side) (place : Nat) : String :=
  defaultMark ++ s!"{word}|{side.plural}[{place}]"

def assemblies : List (String × NodeType) :=
  [("Quat", .quaternionToRotation), ("Matrix", .combineMatrix)]

def IsCombination (tag : String) : Prop :=
  ∃ markers, tag = operation Function.combixyz.name markers

theorem isTag_assembler (word : String) (side : Side) (place : Nat) :
    isTag (assembler word side place) = true := isTag_default _

theorem letter?_assembler (word : String) (side : Side) (place : Nat) :
    letter? (assembler word side place) = some 'D' := by
  simp [letter?, assembler, defaultMark, String.toList_append]

theorem toList_assembler (word : String) (side : Side) (place : Nat) :
    (assembler word side place).toList = 'D' :: '|' :: (word.toList ++
      '|' :: (side.plural.toList ++ '[' :: (Nat.toDigits 10 place ++ [']']))) := by
  have hdigits : (toString place).toList = Nat.toDigits 10 place := Nat.toList_repr
  simp only [assembler, defaultMark, String.toList_append, hdigits]
  simp [toString]

/-- The tag of a node that assembles a value tells what for. -/
theorem assembler_injective {e e' : String × NodeType} {side side' : Side} {place place' : Nat}
    (he : e ∈ assemblies) (he' : e' ∈ assemblies)
    (h : assembler e.1 side place = assembler e'.1 side' place') :
    e = e' ∧ side = side' ∧ place = place' := by
  have hlist := congrArg String.toList h
  rw [toList_assembler, toList_assembler] at hlist
  have hplace : Nat.toDigits 10 place = Nat.toDigits 10 place' → place = place' := fun hd => by
    rw [← Numeric.digitsValue_toDigits place, hd, Numeric.digitsValue_toDigits]
  simp only [assemblies, List.mem_cons, List.not_mem_nil, or_false] at he he'
  rcases he with rfl | rfl <;> rcases he' with rfl | rfl <;> cases side <;> cases side' <;>
    simp [Side.plural] at hlist ⊢ <;> exact hplace hlist

theorem not_isCombination {f : Function} (hf : f ≠ .combixyz) (ms : List String) :
    ¬IsCombination (operation f.name ms) := by
  rintro ⟨ms', h⟩
  exact hf (Function.name_injective
    (op_injective f.no_bracket_name (Function.no_bracket_name _) h))

theorem letter?_of_parts (h : IsSeparation tag ∨ IsCombination tag) : letter? tag = some 'F' := by
  rcases h with ⟨ms, rfl⟩ | ⟨ms, rfl⟩ <;> exact letter?_operation _ _

theorem IsSeparation.not_isCombination (h : IsSeparation tag) : ¬IsCombination tag := by
  rintro ⟨ms, rfl⟩
  exact Pass.not_isSeparation .combixyz ms h

/-- What a tag says about its node: some tags tell the type, and a node has
settings only if its type has some. -/
structure Suits (tag : String) (type : NodeType) (settings : List (String × String)) : Prop where
  fixed : type.isFixed = true → settings = []
  assembles : ∀ e ∈ assemblies, ∀ side place, tag = assembler e.1 side place → type = e.2
  separates : IsSeparation tag → type = .separateXYZ
  combines : IsCombination tag → type = .combineXYZ
  frames : isTag tag = true → letter? tag = some 'G' → type = .frame

/-- A tag that tells the type of its node. -/
inductive Definite (tag : String) : Prop where
  | assembler {e : String × NodeType} {side : Side} {place : Nat} (mem : e ∈ assemblies)
      (eq : tag = Tag.assembler e.1 side place)
  | separation (h : IsSeparation tag)
  | combination (h : IsCombination tag)
  | frame (tagged : isTag tag = true) (h : letter? tag = some 'G')

/-- An input that no call under a tag wires, whatever the literals of the call
are. -/
structure Spares (tag : String) (type : NodeType) (slot : Nat) : Prop where
  call : IsCall tag
  free : ∀ f k args (b : Blueprint Operand), tag = operation f.name (Pass.markers k args).1 →
    b.IsFor f args → b.type = type → slot ∉ b.inputs.map Prod.fst

section Suits

variable {tag : String} {type type' : NodeType} {settings settings' : List (String × String)}

theorem Suits.type_eq (h : Suits tag type settings) (h' : Suits tag type' settings')
    (hd : Definite tag) : type = type' := by
  cases hd with
  | assembler mem eq =>
    exact (h.assembles _ mem _ _ eq).trans (h'.assembles _ mem _ _ eq).symm
  | separation hs => exact (h.separates hs).trans (h'.separates hs).symm
  | combination hc => exact (h.combines hc).trans (h'.combines hc).symm
  | frame tagged hl => exact (h.frames tagged hl).trans (h'.frames tagged hl).symm

theorem Suits.settle (h : Suits tag type settings) (hf : type.isFixed = true → settings' = []) :
    Suits tag type settings' := ⟨hf, h.assembles, h.separates, h.combines, h.frames⟩

/-- The tag of an operation tells the type if it takes a vector apart or puts
one together. -/
theorem suits_operation {ms : List String} {op : String} (hf : type.isFixed = true → settings = [])
    (hs : IsSeparation (operation op ms) → type = .separateXYZ)
    (hc : IsCombination (operation op ms) → type = .combineXYZ) :
    Suits (operation op ms) type settings := by
  have hletter : letter? (operation op ms) = some 'F' := letter?_operation op ms
  refine ⟨hf, fun e _ side place heq => ?_, hs, hc, fun _ hg => ?_⟩
  · rw [heq, letter?_assembler] at hletter
    cases hletter
  · rw [hg] at hletter
    cases hletter

theorem suits_of_letter (hf : type.isFixed = true → settings = [])
    (h : letter? tag = some 'C' ∨ letter? tag = some 'G' ∧ type = .frame) :
    Suits tag type settings := by
  have hparts : ¬(IsSeparation tag ∨ IsCombination tag) := by
    intro hp
    rw [letter?_of_parts hp] at h
    simp at h
  refine ⟨hf, fun e _ side place heq => ?_, fun hs => absurd (.inl hs) hparts,
    fun hc => absurd (.inr hc) hparts, fun _ hg => ?_⟩
  · rw [heq, letter?_assembler] at h
    simp at h
  · rw [hg] at h
    simpa using h

theorem suits_assembler {e : String × NodeType} (he : e ∈ assemblies) (side : Side) (place : Nat) :
    Suits (assembler e.1 side place) e.2 [] := by
  have hletter := letter?_assembler e.1 side place
  have hparts : ¬(IsSeparation (assembler e.1 side place) ∨
      IsCombination (assembler e.1 side place)) := by
    intro hp
    rw [letter?_of_parts hp] at hletter
    cases hletter
  refine ⟨fun _ => rfl, fun _ he' _ _ h => congrArg Prod.snd (assembler_injective he he' h).1,
    fun hs => absurd (.inl hs) hparts, fun hc => absurd (.inr hc) hparts, fun _ hg => ?_⟩
  rw [hg] at hletter
  cases hletter

theorem suits_of_plain (h : isTag tag = false) (hf : type.isFixed = true → settings = []) :
    Suits tag type settings := by
  have hparts : ¬(IsSeparation tag ∨ IsCombination tag) := by
    rintro (⟨ms, rfl⟩ | ⟨ms, rfl⟩) <;>
    · rw [isTag_operation] at h
      cases h
  refine ⟨hf, fun e _ side place heq => ?_, fun hs => absurd (.inl hs) hparts,
    fun hc => absurd (.inr hc) hparts, fun ht => ?_⟩
  · rw [heq, isTag_assembler] at h
    cases h
  · rw [h] at ht
    cases ht

end Suits

end Tag

def Node.Apt (n : Node) : Prop := Tag.Suits n.name n.type n.properties.entries

namespace Tree

def Apt (t : Tree) : Prop := ∀ n ∈ t.nodes, n.Apt

/-- Inputs that no call under the name of their node wires are as the node was
made with. -/
def Clean (t : Tree) : Prop := ∀ n ∈ t.nodes, ∀ i s spec, n.inputs[i]? = some s →
  n.type.inputs[i]? = some spec → Tag.Spares n.name n.type i →
    t.feedOf? s.id = none ∧ s.default = spec.default

structure Elsewhere (t : Tree) (name : String) (y : SocketId) : Prop where
  below : y.index < t.supply
  other : ∀ n ∈ t.nodes, n.name = name → y ∉ n.inputIds

theorem Apart.keeps {t t' : Tree} {id : NodeId} (h : t.Apart tag id)
    (hk : Keeps (t.Apart tag) t t') :
    t'.Apart tag id := by
  obtain ⟨n, hn, hne⟩ := h
  obtain ⟨n', hn', ho⟩ := hk.node? ⟨n, hn, hne⟩ hn
  have hname : n'.name = n.name := show n'.orphan.name = n.orphan.name by rw [ho]
  exact ⟨n', hn', hname ▸ hne⟩

theorem Redresses.exists_node? {t t' : Tree} (h : Redresses t t') {id : NodeId} {n : Node}
    (hn : t.node? id = some n) : ∃ n', t'.node? id = some n' ∧ n.Redressed n' := by
  obtain ⟨f, hf, heq⟩ := h.nodes
  have hid : ∀ n, (f n).id = n.id := fun n => congrArg Outline.id (hf n).outline
  refine ⟨f n, ?_, hf n⟩
  rw [Tree.node?, heq, find?_map_of_congr fun n => by rw [hid n]]
  exact congrArg (Option.map f) hn

end Tree

namespace Pass

variable {handles : List Handle} {h : Handle} {t : Tree}

/-- What is left by work on the node of one tag. Links are only made from
handles that the pass knows. -/
structure Works (roster : List Handle) (tag : String) (p q : Pass) : Prop where
  steps : ReflTransGen Tree.Amends p.tree q.tree
  rooted : q.Rooted
  keeps : Tree.Keeps (p.tree.Apart tag) p.tree q.tree
  boundary : q.tree.boundary = p.tree.boundary
  editor : q.tree.editor = p.tree.editor
  others : ∀ other, other ≠ tag → q.index.lookup other = p.index.lookup other
  own : ∀ id, q.index.lookup tag = some id → ∃ n, q.tree.node? id = some n ∧ n.name = tag
  apt : p.tree.Apt → q.tree.Apt
  clean : p.tree.Clean → q.tree.Clean
  feeds : p.tree.Apt → Tag.Definite tag → ∀ y, p.tree.Elsewhere tag y →
    q.tree.feedOf? y = p.tree.feedOf? y ∧ q.tree.Elsewhere tag y
  links : ∀ l ∈ q.tree.links, l ∈ p.tree.links ∨
    ∃ g, Known roster p g ∧ g.kind ≠ .output ∧ l.source = g.socket
  counts : q.counts = p.counts
  literals : q.literals = p.literals
  results : q.results = p.results

/-- What a tag has given, as far as the tag tells: one handle on the value of a
call or of a constant, or three on the components of a vector. -/
inductive Entry (tag : String) : List Handle → Prop where
  | call {f : Function} {ms : List String} {h : Handle} (eq : tag = Tag.operation f.name ms)
      (kind : h.kind.isNumeric = true) : Entry tag [h]
  | parts {ms : List String} {x y z : Handle} (eq : tag = Tag.operation "sepaxyz" ms)
      (kinds : ∀ h ∈ [x, y, z], h.kind = .scalar) : Entry tag [x, y, z]
  | constant {text : String} {h : Handle} (eq : tag = Tag.constantMark ++ text)
      (kind : h.kind = .scalar) : Entry tag [h]

/-- An operand that functions accept, with a handle that the pass knows. -/
structure Usable (roster : List Handle) (p : Pass) (o : Operand) : Prop where
  known : ∀ h, o = .handle h → Known roster p h
  numeric : o.kind.isNumeric = true

/-- What a pass may reach: the tags it works on, the outputs it assigns and the
boundary sockets it asks for. -/
structure Scope where
  tags : String → Prop
  assigned : SocketRef → Prop
  asked : Side → String → SocketType → Prop

/-- Where the source of an output may be: at a handle that the pass knows, or at
the node that assembles the value of the output. -/
def Supplies (roster : List Handle) (p : Pass) (source target : SocketRef) : Prop :=
  (∃ g, Known roster p g ∧ g.kind ≠ .output ∧ source = g.socket) ∨
  ∃ e ∈ Tag.assemblies, ∃ place,
    p.index.lookup (Tag.assembler e.1 .output place) = some source.node ∧
    p.tree.boundaryIndex? target.socket = some place

inductive Moves (roster : List Handle) (scope : Scope) (p : Pass) : Pass → Prop where
  | note {counts : HandleCounts} {literals : Nat} (hc : ∀ k, p.counts.get k ≤ counts.get k)
      (hl : p.literals ≤ literals) : Moves roster scope p { p with counts, literals }
  | work {tag : String} {q : Pass} (tagged : Tag.isTag tag = true) (new : tag ∉ p.keys)
      (within : scope.tags tag) (h : Works roster tag p q) : Moves roster scope p q
  | give {tag : String} {id : NodeId} {n : Node} {handles : List Handle} {counts : HandleCounts}
      (new : tag ∉ p.keys) (node : p.tree.node? id = some n) (name : n.name = tag)
      (on : ∀ h ∈ handles, h.node = id) (entry : Entry tag handles)
      (fresh : ∀ h ∈ handles, p.counts.get h.kind ≤ h.number ∧ h.number < counts.get h.kind)
      (apart : ∀ h ∈ handles, ∀ h' ∈ handles, h.kind = h'.kind → h.number = h'.number → h = h')
      (hc : ∀ k, p.counts.get k ≤ counts.get k) :
      Moves roster scope p { p with counts, results := (tag, handles) :: p.results }
  | again {f : Function} {ms : List String} {h : Handle} (old : ∃ e ∈ p.results, h ∈ e.2) :
      Moves roster scope p { p with results := (Tag.operation f.name ms, [h]) :: p.results }
  | ask {side : Side} {name : String} {type : SocketType} (within : scope.asked side name type) :
      Moves roster scope p { p with tree := (Tree.socketFor side name type p.tree).2 }
  | store {x : SocketId} {s : Socket} {value : Value} (found : p.tree.boundarySocket? x = some s)
      (within : (s.side = .input ∧ ∃ type, scope.asked .input s.name type) ∨
        scope.assigned ⟨.groupOutput, x⟩) :
      Moves roster scope p { p with tree := (Tree.setSocketDefault x value p.tree).2 }
  | release {x : SocketId} {s : Socket} (found : p.tree.boundarySocket? x = some s)
      (within : scope.assigned ⟨.groupOutput, x⟩) :
      Moves roster scope p { p with tree := p.tree.disconnect x }
  | feed {source target : SocketRef} (within : scope.assigned target)
      (supplied : Supplies roster p source target) :
      Moves roster scope p { p with tree := (Tree.reconnect source target p.tree).2 }

abbrev Runs (roster : List Handle) (scope : Scope) : Pass → Pass → Prop :=
  ReflTransGen (Moves roster scope)

/-- What holds throughout a pass, whether its operations succeed or not. -/
structure Viable (p : Pass) : Prop where
  hosted : p.tree.Hosted
  equipped : p.tree.Equipped
  rooted : p.Rooted
  found : ∀ tag id, p.index.lookup tag = some id →
    Tag.isTag tag = true ∧ ∃ n, p.tree.node? id = some n ∧ n.name = tag
  settled : ∀ e ∈ p.results, ∀ h ∈ e.2, ∃ n, p.tree.node? h.node = some n ∧ n.name ∈ p.keys
  entries : ∀ e ∈ p.results, Entry e.1 e.2

variable {roster : List Handle} {scope : Scope} {p q r : Pass} {tag : String} {id : NodeId}

namespace Entry

variable {handles : List Handle} (he : Entry tag handles)
include he

theorem numeric : ∀ g ∈ handles, g.kind.isNumeric = true := by
  cases he with
  | call _ kind => simpa using kind
  | parts _ kinds =>
    intro g hg
    rw [kinds g hg]
    rfl
  | constant _ kind => simp [kind, Kind.isNumeric]

theorem of_separation (ht : Tag.IsSeparation tag) :
    ∃ x y z, handles = [x, y, z] ∧ ∀ g ∈ handles, g.kind = .scalar := by
  cases he with
  | call eq => exact absurd ht (eq ▸ not_isSeparation _ _)
  | parts _ kinds => exact ⟨_, _, _, rfl, kinds⟩
  | constant eq =>
    have hletter := Tag.letter?_of_parts (.inl ht)
    rw [eq, Tag.letter?_constant] at hletter
    cases hletter

theorem exists_head : ∃ g l, handles = g :: l := by
  cases he <;> exact ⟨_, _, rfl⟩

theorem isTag : Tag.isTag tag = true := by
  cases he with
  | call eq | parts eq => exact eq ▸ Tag.isTag_operation _ _
  | constant eq => exact eq ▸ Tag.isTag_constant _

theorem letter : Tag.letter? tag ≠ some 'D' ∧ Tag.letter? tag ≠ some 'G' := by
  cases he with
  | call eq | parts eq =>
    rw [eq, Tag.letter?_operation]
    decide
  | constant eq =>
    rw [eq, Tag.letter?_constant]
    decide

end Entry

theorem Usable.of_handle (hk : Known roster p h) (hn : h.kind.isNumeric = true) :
    Usable roster p (.handle h) := by
  refine ⟨fun g hg => ?_, hn⟩
  cases hg
  exact hk

theorem Usable.mono {o : Operand} (h : Usable roster p o) (hr : p.results <:+ q.results) :
    Usable roster q o := ⟨fun g hg => (h.known g hg).mono hr, h.numeric⟩

namespace Works

theorem refl (hp : p.Viable) (roster : List Handle) (tag : String) : Works roster tag p p where
  steps := .refl
  rooted := hp.rooted
  keeps := .refl
  boundary := rfl
  editor := rfl
  others := fun _ _ => rfl
  own := fun id h => (hp.found tag id h).2
  apt := fun h => h
  clean := fun h => h
  feeds := fun _ _ _ hy => ⟨rfl, hy⟩
  links := fun _ hl => .inl hl
  counts := rfl
  literals := rfl
  results := rfl

theorem known (h : Works roster tag p q) {g : Handle} (hg : Known roster q g) :
    Known roster p g := by
  unfold Known at hg ⊢
  rwa [h.results] at hg

theorem trans (h : Works roster tag p q) (h' : Works roster tag q r) : Works roster tag p r where
  steps := h.steps.trans h'.steps
  rooted := h'.rooted
  keeps := h.keeps.trans h'.keeps fun _ ha => ha.keeps h.keeps
  boundary := h'.boundary.trans h.boundary
  editor := h'.editor.trans h.editor
  others := fun other hne => (h'.others other hne).trans (h.others other hne)
  own := h'.own
  apt := fun ha => h'.apt (h.apt ha)
  clean := fun hc => h'.clean (h.clean hc)
  feeds := by
    intro ha hd y hy
    obtain ⟨hfeed, hy⟩ := h.feeds ha hd y hy
    obtain ⟨hfeed', hy⟩ := h'.feeds (h.apt ha) hd y hy
    exact ⟨hfeed'.trans hfeed, hy⟩
  links := by
    intro l hl
    rcases h'.links l hl with hl | ⟨g, hg, hl⟩
    · exact h.links l hl
    · exact .inr ⟨g, h.known hg, hl⟩
  counts := h'.counts.trans h.counts
  literals := h'.literals.trans h.literals
  results := h'.results.trans h.results

end Works

section Widen

variable {wider : List Handle} (hr : roster ⊆ wider)
include hr

theorem Known.widen (hk : Known roster p h) : Known wider p h :=
  hk.imp_left fun hm => hr hm

theorem Moves.widen (hm : Moves roster scope p q) : Moves wider scope p q := by
  cases hm with
  | note hc hl => exact .note hc hl
  | work tagged new within h =>
    refine .work tagged new within { h with links := fun l hl => ?_ }
    exact (h.links l hl).imp_right fun ⟨g, hg, rest⟩ => ⟨g, hg.widen hr, rest⟩
  | give new node name on entry fresh apart hc =>
    exact .give new node name on entry fresh apart hc
  | again old => exact .again old
  | ask within => exact .ask within
  | store found within => exact .store found within
  | release found within => exact .release found within
  | feed within supplied =>
    exact .feed within (supplied.imp_left fun ⟨g, hg, rest⟩ => ⟨g, hg.widen hr, rest⟩)

theorem Runs.widen (h : Runs roster scope p q) : Runs wider scope p q := by
  induction h with
  | refl => exact .refl
  | tail _ hm ih => exact ih.tail (hm.widen hr)

end Widen

structure Scope.Inside (scope wider : Scope) : Prop where
  tags : ∀ tag, scope.tags tag → wider.tags tag
  assigned : ∀ r, scope.assigned r → wider.assigned r
  asked : ∀ side name type, scope.asked side name type → wider.asked side name type

section Loosen

variable {wider : Scope} (hs : scope.Inside wider)
include hs

theorem Moves.loosen (hm : Moves roster scope p q) : Moves roster wider p q := by
  cases hm with
  | note hc hl => exact .note hc hl
  | work tagged new within h => exact .work tagged new (hs.tags _ within) h
  | give new node name on entry fresh apart hc =>
    exact .give new node name on entry fresh apart hc
  | again old => exact .again old
  | ask within => exact .ask (hs.asked _ _ _ within)
  | store found within =>
    refine .store found (within.imp (fun hin => ⟨hin.1, ?_⟩) (hs.assigned _))
    obtain ⟨type, hasked⟩ := hin.2
    exact ⟨type, hs.asked _ _ _ hasked⟩
  | release found within => exact .release found (hs.assigned _ within)
  | feed within supplied => exact .feed (hs.assigned _ within) supplied

theorem Runs.loosen (h : Runs roster scope p q) : Runs roster wider p q := by
  induction h with
  | refl => exact .refl
  | tail _ hm ih => exact ih.tail (hm.loosen hs)

end Loosen

namespace Viable

variable (hp : p.Viable)
include hp

theorem apart (hk : tag ∉ p.keys) {e : String × List Handle} (he : e ∈ p.results)
    (hh : h ∈ e.2) : p.tree.Apart tag h.node := by
  obtain ⟨n, hn, hname⟩ := hp.settled e he h hh
  exact ⟨n, hn, fun hc => hk (hc ▸ hname)⟩

theorem not_group (hi : p.index.lookup tag = some id) : id.isGroup = false := by
  obtain ⟨htag, n, hn, hname⟩ := hp.found tag id hi
  exact hp.hosted.grouped.not_group hn (hname ▸ htag)

theorem redress (ha : Tree.Amends p.tree t) (hr : p.tree.Redresses t) :
    ({ p with tree := t } : Pass).Viable where
  hosted := hp.hosted.amend ha
  equipped := hp.equipped.amend hp.rooted.supply ha
  rooted := hp.rooted.amend ha
  found := by
    intro tag id hi
    obtain ⟨htag, n, hn, hname⟩ := hp.found tag id hi
    obtain ⟨n', hn', hred⟩ := hr.exists_node? hn
    exact ⟨htag, n', hn', (congrArg Outline.name hred.outline).trans hname⟩
  settled := by
    intro e he h hh
    obtain ⟨n, hn, hname⟩ := hp.settled e he h hh
    obtain ⟨n', hn', hred⟩ := hr.exists_node? hn
    have hkept : n'.name = n.name := congrArg Outline.name hred.outline
    exact ⟨n', hn', hkept ▸ hname⟩
  entries := hp.entries

theorem work (ht : Tag.isTag tag = true) (hk : tag ∉ p.keys)
    (h : Works roster tag p q) : q.Viable where
  hosted := hp.hosted.steps h.steps
  equipped := hp.equipped.steps hp.rooted.supply h.steps
  rooted := h.rooted
  found := by
    intro other id hi
    by_cases hne : other = tag
    · subst hne
      exact ⟨ht, h.own id hi⟩
    · rw [h.others other hne] at hi
      obtain ⟨htag, n, hn, hname⟩ := hp.found other id hi
      obtain ⟨n', hn', ho⟩ := h.keeps.node? ⟨n, hn, hname ▸ hne⟩ hn
      exact ⟨htag, n', hn', (show n'.orphan.name = n.orphan.name by rw [ho]).trans hname⟩
  settled := by
    intro e he g hg
    unfold keys
    rw [h.results] at he ⊢
    obtain ⟨n, hn, hname⟩ := hp.settled e he g hg
    obtain ⟨n', hn', ho⟩ := h.keeps.node? (hp.apart hk he hg) hn
    exact ⟨n', hn', (show n'.orphan.name = n.orphan.name by rw [ho]) ▸ hname⟩
  entries := by
    intro e he
    rw [h.results] at he
    exact hp.entries e he

theorem keep {counts : HandleCounts}
    (hs : ∀ h ∈ handles, ∃ n, p.tree.node? h.node = some n ∧ (n.name = tag ∨ n.name ∈ p.keys))
    (he : Entry tag handles) :
    ({ p with counts, results := (tag, handles) :: p.results } : Pass).Viable where
  hosted := hp.hosted
  equipped := hp.equipped
  rooted := ⟨hp.rooted.supply, hp.rooted.index⟩
  found := hp.found
  settled := by
    intro e he' h hh
    rcases List.mem_cons.mp he' with rfl | he'
    · obtain ⟨n, hn, hname⟩ := hs h hh
      exact ⟨n, hn, List.mem_cons.mpr hname⟩
    · obtain ⟨n, hn, hname⟩ := hp.settled e he' h hh
      exact ⟨n, hn, List.mem_cons_of_mem _ hname⟩
  entries := by
    intro e he'
    rcases List.mem_cons.mp he' with rfl | he'
    · exact he
    · exact hp.entries e he'

theorem move (h : Moves roster scope p q) : q.Viable := by
  cases h with
  | note => exact ⟨hp.hosted, hp.equipped, ⟨hp.rooted.supply, hp.rooted.index⟩, hp.found,
      hp.settled, hp.entries⟩
  | work tagged new _ h => exact hp.work tagged new h
  | @give tag id n _ _ _ node name on entry =>
    refine hp.keep (fun h hh => ⟨n, ?_, .inl name⟩) entry
    rw [on h hh]
    exact node
  | @again f ms h old =>
    obtain ⟨e, he, hh⟩ := old
    refine hp.keep (fun g hg => ?_) (.call rfl ((hp.entries e he).numeric h hh))
    obtain ⟨n, hn, hname⟩ := hp.settled e he h hh
    cases List.mem_singleton.mp hg
    exact ⟨n, hn, .inr hname⟩
  | ask _ => exact hp.redress (.ask _ _ trivial _) (Tree.redresses_socketFor _ _ _)
  | store _ _ => exact hp.redress (.store _ trivial _) (Tree.redresses_setSocketDefault _ _)
  | release _ _ =>
    exact hp.redress (.unlink _ (.inl trivial)) (.of_parts rfl rfl (Nat.le_refl _))
  | feed _ _ => exact hp.redress (.relink _ _ (.inl trivial)) (Tree.redresses_reconnect _ _)

theorem runs (h : Runs roster scope p q) : q.Viable := by
  induction h with
  | refl => exact hp
  | tail _ hmove ih => exact ih.move hmove

end Viable

theorem viable_start (h : t.Hosted) (he : t.Equipped) : (start t).Viable where
  hosted := h.setActive _
  equipped := he.of_nodes rfl
  rooted := h.rooted_start
  found := by
    intro tag id hi
    obtain ⟨n, hn, htag, heq⟩ := mem_tagIndex.mp
      (mem_of_lookup (show (tagIndex t).lookup tag = _ from hi))
    obtain ⟨rfl, rfl⟩ := Prod.mk.inj heq
    exact ⟨htag, n, Tree.node?_of_mem h.sane.nodes hn, rfl⟩
  settled := fun _ he => (by cases he)
  entries := fun _ he => (by cases he)

/-- The books of a pass only grow, and boundary sockets stay where they are. -/
structure Gains (p q : Pass) : Prop where
  counts : ∀ k, p.counts.get k ≤ q.counts.get k
  results : p.results <:+ q.results
  editor : q.tree.editor = p.tree.editor
  retains : p.tree.Retains q.tree

namespace Gains

theorem refl (p : Pass) : Gains p p :=
  ⟨fun _ => Nat.le_refl _, List.suffix_rfl, rfl, .refl⟩

theorem trans (h : Gains p q) (h' : Gains q r) : Gains p r :=
  ⟨fun k => Nat.le_trans (h.counts k) (h'.counts k),
    h.results.trans h'.results, h'.editor.trans h.editor, h.retains.trans h'.retains⟩

theorem of_tree (he : t.editor = p.tree.editor) (hr : p.tree.Retains t) :
    Gains p { p with tree := t } :=
  ⟨fun _ => Nat.le_refl _, List.suffix_rfl, he, hr⟩

theorem move (h : Moves roster scope p q) : Gains p q := by
  cases h with
  | note hc => exact ⟨hc, List.suffix_rfl, rfl, .refl⟩
  | work _ _ _ h =>
    exact ⟨fun k => by rw [h.counts], by rw [h.results], h.editor,
      .of_boundary h.boundary⟩
  | give _ _ _ _ _ _ _ hc => exact ⟨hc, List.suffix_cons _ _, rfl, .refl⟩
  | again => exact ⟨fun _ => Nat.le_refl _, List.suffix_cons _ _, rfl, .refl⟩
  | @ask side name type =>
    exact .of_tree (Tree.editor_socketFor side name type p.tree) (.socketFor side name type)
  | @store x s value found =>
    obtain ⟨b, t, heq, -, hretains, -⟩ := Tree.setSocketDefault_spec found value
    refine .of_tree ?_ (by rwa [heq])
    rw [Tree.setSocketDefault_run found]
    split <;> rfl
  | release => exact .of_tree rfl (.of_boundary rfl)
  | feed =>
    refine .of_tree ?_ (.of_boundary ?_) <;>
    · rw [Tree.reconnect_run]
      split <;> rfl

theorem runs (h : Runs roster scope p q) : Gains p q := by
  induction h with
  | refl => exact .refl p
  | tail _ hmove ih => exact ih.trans (.move hmove)

end Gains

end Pass

end FormulaGraph
