import FormulaGraph.Proofs.Pass.Wiring

/-!
How a pass gets the node of a tag: it uses one again, makes one, or replaces
one of another type. In each case the nodes of other names are kept.
-/

namespace FormulaGraph

open Run

variable {key : String}

namespace Ordered

variable {α : Type}

theorem lookup_put (key name : String) (value : α) (entries : List (String × α)) :
    (put key value entries).lookup name =
      if name = key then some value else entries.lookup name := by
  induction entries with
  | nil =>
    by_cases h : name = key
    · simp [put, h]
    · simp [put, h]
  | cons entry rest ih =>
    obtain ⟨k, v⟩ := entry
    unfold put
    by_cases hk : k = key
    · subst hk
      by_cases h : name = k
      · simp [h]
      · have hb : (name == k) = false := by simpa using h
        simp [List.lookup_cons, h, hb]
    · by_cases h : name = k
      · subst h
        simp [hk]
      · have hb : (name == k) = false := by simpa using h
        simp [List.lookup_cons, hb, hk, ih]

theorem get?_insertAll_of_not_mem {entries : List (String × α)} {m : Ordered α}
    (h : key ∉ entries.map Prod.fst) : (m.insertAll entries).get? key = m.get? key := by
  induction entries generalizing m with
  | nil => rfl
  | cons entry rest ih =>
    rw [List.map_cons, List.mem_cons, not_or] at h
    show ((m.insert entry.1 entry.2).insertAll rest).get? key = _
    rw [ih h.2]
    show (put _ _ _).lookup key = _
    rw [lookup_put, if_neg h.1]
    rfl

theorem get?_insertAll_of_mem {entries : List (String × α)} {m : Ordered α} {value : α}
    (hd : (entries.map Prod.fst).Nodup) (h : (key, value) ∈ entries) :
    (m.insertAll entries).get? key = some value := by
  induction entries generalizing m with
  | nil => cases h
  | cons entry rest ih =>
    rw [List.map_cons, List.nodup_cons] at hd
    show ((m.insert entry.1 entry.2).insertAll rest).get? key = _
    rcases List.mem_cons.mp h with rfl | h
    · rw [get?_insertAll_of_not_mem hd.1]
      show (put _ _ _).lookup key = _
      rw [lookup_put, if_pos rfl]
    · exact ih hd.2 h

end Ordered

def Node.Has (n : Node) (settings : List (String × String)) : Prop :=
  ∀ s ∈ settings, n.property? s.1 = some s.2

namespace Pass

variable {settings : List (String × String)}

theorem has_refresh (hd : (settings.map Prod.fst).Nodup) (n : Node) :
    (refresh settings n).Has settings := by
  intro s hs
  let missing := settings.filter fun s => n.property? s.1 != some s.2
  have hd' : (missing.map Prod.fst).Nodup := hd.sublist (List.filter_sublist.map _)
  show (n.properties.insertAll missing).get? s.1 = some s.2
  by_cases h : n.property? s.1 = some s.2
  · rw [Ordered.get?_insertAll_of_not_mem]
    · exact h
    · intro hm
      obtain ⟨r, hr, hkey⟩ := List.mem_map.mp hm
      obtain ⟨hr, hne⟩ := List.mem_filter.mp hr
      rw [List.inj_on_of_nodup_map hd hr hs hkey] at hne
      simp [h] at hne
  · exact Ordered.get?_insertAll_of_mem hd' (List.mem_filter.mpr ⟨hs, by simpa using h⟩)

theorem refresh_of_has {n : Node} (h : n.Has settings) : refresh settings n = n := by
  have : settings.filter (fun s => n.property? s.1 != some s.2) = [] := by
    rw [List.filter_eq_nil_iff]
    intro s hs
    simp [h s hs]
  unfold refresh
  rw [this]
  rfl

theorem alike_refresh (n : Node) : (refresh settings n).Alike n := ⟨rfl, rfl, rfl, rfl⟩

def setup (t : Tree) (tag : String) (settings : List (String × String)) : NodeSetup :=
  { name := some tag, position := nextPosition t, properties := settings }

def made (p : Pass) (tag : String) (type : NodeType) (settings : List (String × String)) : Pass :=
  { p with
    tree := (p.tree.addNode type (setup p.tree tag settings)).1
    index := (tag, ⟨p.tree.supply⟩) :: p.index
    used := ⟨p.tree.supply⟩ :: p.used
    created := p.created + 1 }

def cleared (p : Pass) (tag : String) (id : NodeId) : Pass :=
  { p with tree := p.tree.removeNode id, index := p.index.filter (·.1 != tag) }

def reused (p : Pass) (settings : List (String × String)) (id : NodeId) : Pass :=
  { p with tree := p.tree.modifyNode id (refresh settings), used := id :: p.used }

variable {p p' : Pass} {tag : String} {type : NodeType} {id : NodeId}

theorem makeNode_run : makeNode tag type settings p =
    if p.tree.editor.offers type then (.ok ⟨p.tree.supply⟩, p.made tag type settings)
    else (.error (.unavailableNode type p.tree.editor), p) := by
  unfold makeNode
  rw [bind_of_ok (get_run p)]
  dsimp only
  by_cases h : p.tree.editor.offers type = true
  · rw [if_pos h]
    simp only [h]
    rfl
  · rw [if_neg h]
    simp only [h]
    rfl

theorem nodeFor_run : nodeFor tag type settings p =
    match p.index.lookup tag with
    | none => makeNode tag type settings p
    | some id =>
      match p.tree.node? id with
      | none =>
        makeNode tag type settings { p with index := p.index.filter (·.1 != tag) }
      | some n =>
        if n.type = type then (.ok id, p.reused settings id)
        else makeNode tag type settings (p.cleared tag id) := by
  unfold nodeFor
  rw [bind_of_ok (get_run p)]
  cases p.index.lookup tag with
  | none => rfl
  | some id =>
    dsimp only
    cases p.tree.node? id with
    | none => rfl
    | some n =>
      dsimp only
      by_cases h : n.type = type
      · rw [if_pos h, if_pos h]
        rfl
      · rw [if_neg h, if_neg h]
        rfl

/-- The ways to get a node: one is found, or made where there was none or where
one of another type was. -/
theorem nodeFor_cases (h : nodeFor tag type settings p = (.ok id, p')) :
    (∃ n, p.index.lookup tag = some id ∧ p.tree.node? id = some n ∧ n.type = type ∧
      p' = p.reused settings id) ∨
    ∃ q : Pass, (q = p ∧ p.index.lookup tag = none ∨
        (∃ old, p.index.lookup tag = some old ∧ p.tree.node? old = none ∧
          q = { p with index := p.index.filter (·.1 != tag) }) ∨
        ∃ old n, p.index.lookup tag = some old ∧ p.tree.node? old = some n ∧ n.type ≠ type ∧
          q = p.cleared tag old) ∧
      q.tree.editor.offers type = true ∧ id = ⟨q.tree.supply⟩ ∧
      p' = q.made tag type settings := by
  have make : ∀ {q : Pass}, makeNode tag type settings q = (.ok id, p') →
      q.tree.editor.offers type = true ∧ id = ⟨q.tree.supply⟩ ∧ p' = q.made tag type settings := by
    intro q hq
    rw [makeNode_run] at hq
    split at hq
    · next ho =>
      cases hq
      exact ⟨ho, rfl, rfl⟩
    · cases hq
  rw [nodeFor_run] at h
  cases hi : p.index.lookup tag with
  | none =>
    rw [hi] at h
    exact .inr ⟨p, .inl ⟨rfl, rfl⟩, make h⟩
  | some old =>
    rw [hi] at h
    dsimp only at h
    cases hn : p.tree.node? old with
    | none =>
      rw [hn] at h
      exact .inr ⟨_, .inr (.inl ⟨old, rfl, hn, rfl⟩), make h⟩
    | some n =>
      rw [hn] at h
      dsimp only at h
      by_cases ht : n.type = type
      · rw [if_pos ht] at h
        cases h
        exact .inl ⟨n, rfl, hn, ht, rfl⟩
      · rw [if_neg ht] at h
        exact .inr ⟨_, .inr (.inr ⟨old, n, rfl, hn, ht, rfl⟩), make h⟩

end Pass

namespace Tree

variable {t t' : Tree} {tag : String} {D : NodeId → Prop}

def Apart (t : Tree) (tag : String) (id : NodeId) : Prop := ∃ n, t.node? id = some n ∧ n.name ≠ tag

theorem Grouped.keeps (hg : t.Grouped) (hk : Keeps D t t') (hi : D .groupInput)
    (ho : D .groupOutput) (hb : t'.boundary = t.boundary) : t'.Grouped := by
  have shown : ∀ side, t'.shownInside side = t.shownInside side := by
    intro side
    unfold shownInside socketsOn
    rw [hb]
  refine ⟨?_, ?_, by rw [hb]; exact hg.distinct⟩
  · obtain ⟨n, hn, hs, hname⟩ := hg.input
    obtain ⟨n', hn', h⟩ := hk.node? hi hn
    refine ⟨n', hn', ?_, ?_⟩
    · rw [shown, ← hs]
      show n'.orphan.outputs = n.orphan.outputs
      rw [h]
    · rw [← hname]
      show Tag.isTag n'.orphan.name = Tag.isTag n.orphan.name
      rw [h]
  · obtain ⟨n, hn, hs, hname⟩ := hg.output
    obtain ⟨n', hn', h⟩ := hk.node? ho hn
    refine ⟨n', hn', ?_, ?_⟩
    · rw [shown, ← hs]
      show n'.orphan.inputs = n.orphan.inputs
      rw [h]
    · rw [← hname]
      show Tag.isTag n'.orphan.name = Tag.isTag n.orphan.name
      rw [h]

theorem Grouped.apart (hg : t.Grouped) (ht : Tag.isTag tag = true) :
    t.Apart tag .groupInput ∧ t.Apart tag .groupOutput := by
  obtain ⟨n, hn, -, hname⟩ := hg.input
  obtain ⟨m, hm, -, hname'⟩ := hg.output
  refine ⟨⟨n, hn, ?_⟩, ⟨m, hm, ?_⟩⟩
  · rintro rfl
    rw [ht] at hname
    cases hname
  · rintro rfl
    rw [ht] at hname'
    cases hname'

theorem keeps_addNode {type : NodeType} {setup : NodeSetup} (h : t.Sane)
    (hd : ∀ id, D id → ∃ n, t.node? id = some n) : Keeps D t (t.addNode type setup).1 := by
  constructor
  · intro id hid
    obtain ⟨n, hn⟩ := hd id hid
    unfold bare?
    rw [node?_addNode h.nodesBelow, if_neg]
    rintro rfl
    have hlt := h.nodesBelow n (mem_of_node? hn)
    rw [id_of_node? hn] at hlt
    exact Nat.lt_irrefl _ hlt
  · intro id n x _ _ _ _
    rw [addNode_eq]
    rfl

end Tree

namespace Pass

variable {p p' : Pass} {tag : String} {type : NodeType} {settings : List (String × String)}
  {id : NodeId}

structure Opened (tag : String) (type : NodeType) (settings : List (String × String))
    (p : Pass) (id : NodeId) (p' : Pass) : Prop where
  sane : p'.tree.Sane
  grouped : p'.tree.Grouped
  keeps : Tree.Keeps (p.tree.Apart tag) p.tree p'.tree
  own : ¬p.tree.Apart tag id
  node : ∃ n, p'.tree.node? id = some n ∧ n.name = tag ∧ n.type = type ∧ n.Has settings
  index : p'.index.lookup tag = some id
  others : ∀ other, other ≠ tag → p'.index.lookup other = p.index.lookup other
  active : ∀ a, p.tree.active = some a → p.tree.Apart tag a → p'.tree.active = some a
  editor : p'.tree.editor = p.tree.editor
  boundary : p'.tree.boundary = p.tree.boundary
  rest : p'.counts = p.counts ∧ p'.literals = p.literals ∧ p'.results = p.results ∧
    p'.constants = p.constants
  used : p'.used = id :: p.used

theorem opened_reused {n : Node} (hs : p.tree.Sane) (hg : p.tree.Grouped)
    (ht : Tag.isTag tag = true) (hd : (settings.map Prod.fst).Nodup)
    (hi : p.index.lookup tag = some id) (hn : p.tree.node? id = some n) (hname : n.name = tag) :
    Opened tag n.type settings p id (p.reused settings id) := by
  have hown : ¬p.tree.Apart tag id := by
    rintro ⟨m, hm, hne⟩
    rw [hn] at hm
    cases hm
    exact hne hname
  have hlocal : p.tree.Local id (p.tree.modifyNode id (refresh settings)) :=
    .modifyNode (fun _ => rfl) alike_refresh fun _ => ⟨rfl, rfl, rfl⟩
  have hkeeps := hlocal.keeps hs hown
  obtain ⟨hi', ho'⟩ := hg.apart ht
  exact {
    sane := hs.modifyNode (fun _ => rfl) alike_refresh
    grouped := hg.keeps hkeeps hi' ho' rfl
    keeps := hkeeps
    own := hown
    node := by
      refine ⟨refresh settings n, ?_, hname, rfl, has_refresh hd n⟩
      show (p.tree.modifyNode id _).node? id = _
      rw [Tree.node?_modifyNode (by intro n; rfl), hn]
      simp
    index := hi
    others := fun _ _ => rfl
    active := fun _ ha _ => ha
    editor := rfl
    boundary := rfl
    rest := ⟨rfl, rfl, rfl, rfl⟩
    used := rfl }

theorem not_apart_supply (hs : p.tree.Sane) : ¬p.tree.Apart tag ⟨p.tree.supply⟩ := by
  rintro ⟨n, hn, -⟩
  have hlt := hs.nodesBelow n (Tree.mem_of_node? hn)
  rw [Tree.id_of_node? hn] at hlt
  exact Nat.lt_irrefl _ hlt

theorem opened_made (hs : p.tree.Sane) (hg : p.tree.Grouped)
    (ht : Tag.isTag tag = true) (hd : (settings.map Prod.fst).Nodup) :
    Opened tag type settings p ⟨p.tree.supply⟩ (p.made tag type settings) := by
  have hkeeps : Tree.Keeps (p.tree.Apart tag) p.tree (p.made tag type settings).tree :=
    Tree.keeps_addNode hs fun id ⟨n, hn, _⟩ => ⟨n, hn⟩
  obtain ⟨hi', ho'⟩ := hg.apart ht
  have heq := Tree.addNode_eq (t := p.tree) type (setup p.tree tag settings)
  have hb : (p.made tag type settings).tree.boundary = p.tree.boundary := by
    show (p.tree.addNode _ _).1.boundary = _
    rw [heq]
  exact {
    sane := hs.addNode
    grouped := hg.keeps hkeeps hi' ho' hb
    keeps := hkeeps
    own := not_apart_supply hs
    node := by
      refine ⟨p.tree.addedNode type (setup p.tree tag settings), ?_, rfl, rfl,
        fun s hs' => Ordered.get?_insertAll_of_mem hd hs'⟩
      show (p.tree.addNode _ _).1.node? _ = _
      rw [Tree.node?_addNode hs.nodesBelow, if_pos rfl]
    index := List.lookup_cons_self
    others := by
      intro other hne
      show List.lookup other (_ :: p.index) = _
      rw [List.lookup_cons, beq_false_of_ne hne]
    active := by
      intro a ha _
      show (p.tree.addNode _ _).1.active = _
      rw [heq]
      exact ha
    editor := by
      show (p.tree.addNode _ _).1.editor = _
      rw [heq]
    boundary := hb
    rest := ⟨rfl, rfl, rfl, rfl⟩
    used := rfl }

theorem lookup_filter_ne {α : Type} {name : String} {l : List (String × α)} (h : name ≠ key) :
    (l.filter (·.1 != key)).lookup name = l.lookup name := by
  induction l with
  | nil => rfl
  | cons entry rest ih =>
    obtain ⟨k, v⟩ := entry
    by_cases hk : k = key
    · subst hk
      rw [List.filter_cons_of_neg (by simp), ih, List.lookup_cons, beq_false_of_ne h]
    · rw [List.filter_cons_of_pos (by simpa using hk), List.lookup_cons, List.lookup_cons, ih]

/-- The node of a tag, however it is got. -/
theorem nodeFor_opened (hs : p.tree.Sane) (hg : p.tree.Grouped)
    (hf : ∀ id, p.index.lookup tag = some id → ∃ n, p.tree.node? id = some n ∧ n.name = tag)
    (ht : Tag.isTag tag = true) (hd : (settings.map Prod.fst).Nodup)
    (h : nodeFor tag type settings p = (.ok id, p')) : Opened tag type settings p id p' := by
  obtain ⟨n, hi, hn, rfl, rfl⟩ | ⟨q, hq, -, rfl, rfl⟩ := nodeFor_cases h
  · obtain ⟨m, hm, hname⟩ := hf id hi
    rw [hn] at hm
    cases hm
    exact opened_reused hs hg ht hd hi hn hname
  · obtain ⟨rfl, -⟩ | ⟨old, hi, hn, -⟩ | ⟨old, n, hi, hn, -, rfl⟩ := hq
    · exact opened_made hs hg ht hd
    · obtain ⟨m, hm, -⟩ := hf old hi
      rw [hn] at hm
      cases hm
    · obtain ⟨m, hm, hname⟩ := hf old hi
      rw [hn] at hm
      cases hm
      have hold : ¬p.tree.Apart tag old := by
        rintro ⟨m, hm, hne⟩
        rw [hn] at hm
        cases hm
        exact hne hname
      obtain ⟨hgi, hgo⟩ := hg.apart ht
      have hgroup : old.isGroup = false := by
        have h₁ : old ≠ .groupInput := fun h => hold (h ▸ hgi)
        have h₂ : old ≠ .groupOutput := fun h => hold (h ▸ hgo)
        simp [NodeId.isGroup, h₁, h₂]
      have hkeeps : Tree.Keeps (p.tree.Apart tag) p.tree (p.cleared tag old).tree :=
        Tree.keeps_removeNode hs hold
      have heq : (p.cleared tag old).tree = _ :=
        show p.tree.removeNode old = _ by
          unfold Tree.removeNode
          rw [if_neg (by simp [hgroup])]
      have ho : Opened tag type settings (p.cleared tag old) _ _ :=
        opened_made (hs.removeNode old) (hg.keeps hkeeps hgi hgo (by rw [heq])) ht hd
      have apart : ∀ x, p.tree.Apart tag x → (p.cleared tag old).tree.Apart tag x := by
        rintro x ⟨m, hm, hne⟩
        obtain ⟨m', hm', horphan⟩ := hkeeps.node? ⟨m, hm, hne⟩ hm
        have : m'.orphan.name = m.orphan.name := by rw [horphan]
        exact ⟨m', hm', by rwa [show m'.name = m.name from this]⟩
      exact { ho with
        keeps := hkeeps.trans ho.keeps apart
        own := fun hc => ho.own (apart _ hc)
        others := fun other hne => (ho.others other hne).trans (lookup_filter_ne hne)
        active := by
          intro a ha hap
          refine ho.active a ?_ (apart a hap)
          rw [heq]
          show p.tree.active.filter _ = _
          rw [ha, Option.filter_some, if_pos]
          have : a ≠ old := fun hc => hold (hc ▸ hap)
          simpa using this
        editor := ho.editor.trans (by rw [heq])
        boundary := ho.boundary.trans (by rw [heq]) }

end Pass

end FormulaGraph
