import FormulaGraph.Proofs.Graph.Keeps

/-!
What wiring does to a tree. It changes one node, at the inputs that are wired;
an input that holds its operand already is left as it is.
-/

namespace FormulaGraph

open Run

variable {inputs : List (Nat × Operand)} {operand : Operand} {s : Socket} {n : Node} {x : SocketId}
  {id : NodeId} {t : Tree}

namespace Tree

variable {t t' : Tree} {a b : SocketRef}

theorem connect_run (source target : SocketRef) :
    connect source target t = match t.linkFault? source target with
      | some fault => (.error fault, t)
      | none => (.ok (), t.addLink source target) := by
  unfold connect
  rw [bind_of_ok (get_run t)]
  cases t.linkFault? source target <;> rfl

theorem reconnect_run (source target : SocketRef) :
    reconnect source target t =
      match (t.disconnect target.socket).linkFault? source target with
      | some fault =>
        (.error fault,
          { t.disconnect target.socket with
            links := (t.disconnect target.socket).links ++
              t.links.filter (·.target.socket == target.socket) })
      | none => (.ok (), (t.disconnect target.socket).addLink source target) := by
  unfold reconnect
  rw [bind_of_ok (get_run t)]
  dsimp only
  rw [bind_of_ok (modify_run _ t), tryCatch_run, connect_run]
  cases (t.disconnect target.socket).linkFault? source target <;> rfl

def Fitting (t : Tree) (a b : SocketRef) (i : Socket) : Prop := ∃ n m o,
  t.node? a.node = some n ∧ t.node? b.node = some m ∧
  n.socket? a.socket = some o ∧ m.socket? b.socket = some i ∧
  o.side = .output ∧ i.side = .input ∧ o.type.fits i.type = true

def Free (t : Tree) (b : SocketRef) : Prop := ∀ l ∈ t.links, l.target.socket ≠ b.socket

/-- An output and an input that exist and fit, of which the input is free or
takes several links. -/
def Linkable (t : Tree) (a b : SocketRef) : Prop :=
  ∃ i, t.Fitting a b i ∧ (i.multiConnect = true ∨ t.Free b)

theorem feedOf?_eq_none_iff : t.feedOf? b.socket = none ↔ t.Free b := by
  simp [feedOf?, Free]

theorem linkFault?_of_linkable (h : t.Linkable a b) : t.linkFault? a b =
    if a.node = b.node then some .selfLoop
    else if t.dependsOn a.node b.node then some .cycle else none := by
  obtain ⟨i, ⟨n, m, o, hn, hm, ho, hi, hos, his, htype⟩, hfree⟩ := h
  have hfits : o.fits i = true := by
    rw [Socket.fits, hos, his, htype]
    rfl
  have hnone : (!i.multiConnect && t.links.any (·.target.socket == b.socket)) = false := by
    rcases hfree with hmulti | hfree
    · rw [hmulti]
      rfl
    · rw [List.any_eq_false.mpr fun l hl => by simpa using hfree l hl, Bool.and_false]
  simp [linkFault?, hn, hm, ho, hi, hos, his, hfits, hnone]

/-- Loops come last: where one is found, nothing else forbids the link. -/
theorem linkable_of_linkFault? (h : t.linkFault? a b = none ∨
    t.linkFault? a b = some .selfLoop ∨ t.linkFault? a b = some .cycle) : t.Linkable a b := by
  unfold linkFault? at h
  split at h
  · simp at h
  next n hn =>
  split at h
  · simp at h
  next m hm =>
  split at h
  · simp at h
  next o ho =>
  split at h
  · simp at h
  next i hi =>
  split at h
  · simp at h
  next hside =>
  split at h
  · simp at h
  next hfits =>
  split at h
  · simp at h
  next hfree =>
  rw [not_or, not_not, not_not] at hside
  refine ⟨i, ⟨n, m, o, hn, hm, ho, hi, hside.1, hside.2, ?_⟩, ?_⟩
  · simp only [Bool.not_eq_true, Bool.not_eq_false', Socket.fits, Bool.and_eq_true] at hfits
    exact hfits.2
  · cases hmulti : i.multiConnect with
    | true => exact .inl rfl
    | false => exact .inr (by simpa [Free, hmulti] using hfree)

/-- A link is possible between an output and a free input that fit, if the
output does not depend on the input. -/
theorem linkFault?_eq_none_iff : t.linkFault? a b = none ↔
    t.Linkable a b ∧ a.node ≠ b.node ∧ t.dependsOn a.node b.node = false := by
  constructor
  · intro h
    have hl := linkable_of_linkFault? (.inl h)
    rw [linkFault?_of_linkable hl] at h
    split at h
    · cases h
    next hself =>
    split at h
    · cases h
    next hcycle => exact ⟨hl, hself, by simpa using hcycle⟩
  · rintro ⟨hl, hself, hcycle⟩
    rw [linkFault?_of_linkable hl, if_neg hself, hcycle]
    rfl

theorem mem_of_socket? (h : n.socket? x = some s) : s ∈ n.inputs ++ n.outputs ∧ s.id = x :=
  ⟨List.mem_of_find?_eq_some h, by simpa using List.find?_some h⟩

theorem Sane.mem_outputs (h : t.Sane) (hn : t.node? id = some n) (hs : n.socket? x = some s)
    (hside : s.side = .output) :
    s ∈ n.outputs := by
  rcases List.mem_append.mp (mem_of_socket? hs).1 with hin | hout
  · rw [((h.sided _ n hn).input hin).1] at hside
    cases hside
  · exact hout

theorem Sane.mem_inputs (h : t.Sane) (hn : t.node? id = some n) (hs : n.socket? x = some s)
    (hside : s.side = .input) :
    s ∈ n.inputs := by
  rcases List.mem_append.mp (mem_of_socket? hs).1 with hin | hout
  · exact hin
  · rw [(h.sided _ n hn).output hout] at hside
    cases hside

/-- Where sockets are linked like new ones, no input takes several links. -/
theorem Sane.linkable_iff (h : t.Sane) : t.Linkable a b ↔ (∃ i, t.Fitting a b i) ∧ t.Free b := by
  constructor
  · rintro ⟨i, hfits, hmulti | hfree⟩
    · obtain ⟨n, m, o, -, hm, -, hi, -, his, -⟩ := hfits
      rw [((h.sided _ m hm).input (h.mem_inputs hm hi his)).2] at hmulti
      cases hmulti
    · exact ⟨⟨i, hfits⟩, hfree⟩
  · rintro ⟨⟨i, hfits⟩, hfree⟩
    exact ⟨i, hfits, .inr hfree⟩

theorem Sane.ends_of_linkFault? (h : t.Sane) (hf : t.linkFault? a b = none) :
    t.HasOutput a ∧ t.HasInput b := by
  obtain ⟨⟨i, ⟨n, m, o, hn, hm, ho, hi, hos, his, -⟩, -⟩, -⟩ := linkFault?_eq_none_iff.mp hf
  refine ⟨⟨n, hn, ?_⟩, ⟨m, hm, ?_⟩⟩
  · rw [← (mem_of_socket? ho).2]
    exact List.mem_map_of_mem (h.mem_outputs hn ho hos)
  · rw [← (mem_of_socket? hi).2]
    exact List.mem_map_of_mem (h.mem_inputs hm hi his)

theorem feedOf?_reconnected {y : SocketId} :
    ((t.disconnect b.socket).addLink a b).feedOf? y =
      if y = b.socket then some ⟨⟨t.supply⟩, a, b⟩ else t.feedOf? y := by
  rw [feedOf?_addLink, feedOf?_disconnect]
  by_cases h : y = b.socket
  · subst h
    simp
    rfl
  · simp [h, Ne.symm h]

theorem Sane.reconnected (h : t.Sane)
    (hf : (t.disconnect b.socket).linkFault? a b = none) :
    ((t.disconnect b.socket).addLink a b).Sane := by
  obtain ⟨ha, hb⟩ := (h.disconnect b.socket).ends_of_linkFault? hf
  refine (h.disconnect b.socket).addLink ha hb ?_
  rw [feedOf?_disconnect, if_pos rfl]

end Tree

def Socket.bare (s : Socket) : Socket := { s with default := none }

/-- The node with other defaults at some inputs, and maybe another colour. -/
structure Node.Rewired (S : Nat → Prop) (n n' : Node) : Prop where
  shell : n' = { n with inputs := n'.inputs, color := n'.color }
  sockets : n'.inputs.map Socket.bare = n.inputs.map Socket.bare
  others : ∀ i, ¬S i → n'.inputs[i]? = n.inputs[i]?

namespace Node.Rewired

variable {S : Nat → Prop} {n n' n'' : Node}

theorem refl (n : Node) : n.Rewired S n := ⟨rfl, rfl, fun _ _ => rfl⟩

theorem trans (h : n.Rewired S n') (h' : n'.Rewired S n'') : n.Rewired S n'' where
  shell := by
    rw [h'.shell, h.shell]
  sockets := h'.sockets.trans h.sockets
  others := fun i hi => (h'.others i hi).trans (h.others i hi)

theorem socket (h : n.Rewired S n') {i : Nat} (hs : n.inputs[i]? = some s) :
    ∃ s', n'.inputs[i]? = some s' ∧ s'.id = s.id ∧ s'.name = s.name ∧ s'.type = s.type := by
  have := congrArg (·[i]?) h.sockets
  simp only [List.getElem?_map, hs, Option.map_some] at this
  obtain ⟨s', hs', hb⟩ := Option.map_eq_some_iff.mp this
  simp only [Socket.bare, Socket.mk.injEq] at hb
  exact ⟨s', hs', hb.1, hb.2.1, hb.2.2.2.1⟩

end Node.Rewired

namespace Tree

structure Wires (S : Nat → Prop) (id : NodeId) (t t' : Tree) : Prop extends Local id t t' where
  active : t'.active = t.active
  rewired : ∀ n, t.node? id = some n → ∃ n', t'.node? id = some n' ∧ n.Rewired S n'
  fed : ∀ n y, t.node? id = some n → (∀ i s, S i → n.inputs[i]? = some s → s.id ≠ y) →
    t'.feedOf? y = t.feedOf? y

namespace Wires

variable {S S' : Nat → Prop} {id : NodeId} {t t' t'' : Tree}

theorem refl : Wires S id t t :=
  { Local.refl with
    active := rfl
    rewired := fun n hn => ⟨n, hn, .refl n⟩
    fed := fun _ _ _ _ => rfl }

variable (h : Wires S id t t')
include h

theorem trans (h' : Wires S id t' t'') : Wires S id t t'' :=
  { h.toLocal.trans h'.toLocal with
    active := h'.active.trans h.active
    rewired := by
      intro n hn
      obtain ⟨n', hn', hr⟩ := h.rewired n hn
      obtain ⟨n'', hn'', hr'⟩ := h'.rewired n' hn'
      exact ⟨n'', hn'', hr.trans hr'⟩
    fed := by
      intro n y hn hy
      obtain ⟨n', hn', hr⟩ := h.rewired n hn
      rw [h'.fed n' y hn' ?_, h.fed n y hn hy]
      intro i s' hi hs'
      have hlen : n'.inputs.length = n.inputs.length := by
        simpa using congrArg List.length hr.sockets
      have hlt : i < n.inputs.length := hlen ▸ (List.getElem?_eq_some_iff.mp hs').1
      obtain ⟨s, hs⟩ : ∃ s, n.inputs[i]? = some s := ⟨_, List.getElem?_eq_getElem hlt⟩
      obtain ⟨r, hr', hid, -⟩ := hr.socket hs
      rw [hs'] at hr'
      cases hr'
      rw [hid]
      exact hy i s hi hs }

theorem mono (hs : ∀ i, S i → S' i) : Wires S' id t t' :=
  { h with
    rewired := by
      intro n hn
      obtain ⟨n', hn', hr⟩ := h.rewired n hn
      exact ⟨n', hn', hr.shell, hr.sockets, fun i hi => hr.others i fun h => hi (hs i h)⟩
    fed := fun n y hn hy => h.fed n y hn fun i s hi => hy i s (hs i hi) }

theorem node_cases (hs : t.Sane) {n' : Node} (hn : t.node? id = some n)
    (hn' : n' ∈ t'.nodes) : n'.id = id ∧ n.Rewired S n' ∨ n'.id ≠ id ∧ n' ∈ t.nodes := by
  have hnode := node?_of_mem (h.ids ▸ hs.nodes) hn'
  by_cases hid : n'.id = id
  · obtain ⟨m, hm, hr⟩ := h.rewired n hn
    rw [hid, hm] at hnode
    cases hnode
    exact .inl ⟨hid, hr⟩
  · rw [h.others _ hid] at hnode
    exact .inr ⟨hid, mem_of_node? hnode⟩

theorem fed_other (hs : t.Sane) {slot : Nat} {input : Socket}
    (hn : t.node? id = some n) (hi : n.inputs[slot]? = some input) (hd : ¬S slot) :
    t'.feedOf? input.id = t.feedOf? input.id := by
  refine h.fed n _ hn fun i s hS his hid => ?_
  have hne : i ≠ slot := fun hc => hd (hc ▸ hS)
  have hnodup : n.inputIds.Nodup := (List.nodup_append.mp (hs.distinct id n hn)).1
  have h₁ : n.inputIds[i]? = some s.id := by simp [Node.inputIds, his]
  have h₂ : n.inputIds[slot]? = some s.id := by simp [Node.inputIds, hi, hid]
  have hlt : i < n.inputIds.length := (List.getElem?_eq_some_iff.mp h₁).1
  exact hne ((List.getElem?_inj hlt hnodup).mp (h₁.trans h₂.symm))

end Wires

/-- Whether an input holds an operand: as a link, or as its default. -/
def Fed (t : Tree) (input : Socket) : Operand → Prop
  | .handle h => h.kind ≠ .output ∧ t.sourceOf? input.id = some h.socket
  | .literal l => t.feedOf? input.id = none ∧ input.default.isSome ∧
      l.toValue?.bind (·.convert input.type) = input.default

/-- Whether the inputs of a node hold the operands of a plan. -/
def FedAll (t : Tree) (id : NodeId) (inputs : List (Nat × Operand)) : Prop :=
  ∀ slot operand, (slot, operand) ∈ inputs → ∃ n input,
    t.node? id = some n ∧ n.inputs[slot]? = some input ∧ t.Fed input operand

theorem Fed.congr {t' : Tree} {input : Socket} (h : t.Fed input operand)
    (hf : t'.feedOf? input.id = t.feedOf? input.id) : t'.Fed input operand := by
  cases operand with
  | handle h' => exact ⟨h.1, by rw [sourceOf?, hf]; exact h.2⟩
  | literal l => exact ⟨hf.trans h.1, h.2⟩

theorem FedAll.wires {S : Nat → Prop} {t' : Tree} (h : t.FedAll id inputs) (hs : t.Sane)
    (hw : Wires S id t t') (hd : ∀ slot operand, (slot, operand) ∈ inputs → ¬S slot) :
    t'.FedAll id inputs := by
  intro slot operand hmem
  obtain ⟨n, input, hn, hinput, hfed⟩ := h slot operand hmem
  obtain ⟨n', hn', hr⟩ := hw.rewired n hn
  have hslot := hd slot operand hmem
  refine ⟨n', input, hn', ?_, hfed.congr (hw.fed_other hs hn hinput hslot)⟩
  rw [hr.others slot hslot]
  exact hinput

end Tree

namespace Pass

variable {p p' : Pass} {id : NodeId} {slot : Nat}

def restored (slot : Nat) (value : Value) (n : Node) : Node :=
  { n.setInputDefault slot value with color := some changedTint }

def stocked (t : Tree) (id : NodeId) (slot : Nat) (input : Socket) (value : Value) : Tree :=
  if input.default = some value then t.disconnect input.id
  else (t.disconnect input.id).modifyNode id (restored slot value)

theorem wire_missing (h : (p.tree.node? id).bind (·.inputs[slot]?) = none) :
    wire id slot operand p = (.error (.missingInput slot), p) := by
  unfold wire
  rw [bind_of_ok (rfl : getTree p = (.ok p.tree, p)), h]
  rfl

variable {n : Node} {input : Socket}

theorem wire_handle (hn : p.tree.node? id = some n) (hi : n.inputs[slot]? = some input)
    (g : Handle) :
    wire id slot (.handle g) p =
      if g.kind = .output then (.error (.unreadableOutput g.boundaryName), p)
      else if p.tree.sourceOf? input.id = some g.socket then (.ok (), p)
      else edit .link (Tree.reconnect g.socket ⟨id, input.id⟩) p := by
  unfold wire
  rw [bind_of_ok (rfl : getTree p = (.ok p.tree, p)), hn]
  dsimp only [Option.bind_some]
  rw [hi]
  dsimp only
  by_cases hk : g.kind = .output
  · rw [if_pos hk, if_pos hk]
    rfl
  · rw [if_neg hk, if_neg hk]
    change (if ¬p.tree.sourceOf? input.id = some g.socket then _ else _ : PassM Unit) p = _
    by_cases hs : p.tree.sourceOf? input.id = some g.socket
    · rw [if_pos hs, if_neg (not_not.mpr hs)]
      rfl
    · rw [if_neg hs, if_pos hs]

theorem wire_literal (hn : p.tree.node? id = some n) (hi : n.inputs[slot]? = some input)
    (l : Literal) :
    wire id slot (.literal l) p = match l.toValue?.bind (·.convert input.type) with
      | none => (.error (.literalIntoSocket l.kind input.type), p)
      | some value => (.ok (), { p with tree := stocked p.tree id slot input value }) := by
  unfold wire
  rw [bind_of_ok (rfl : getTree p = (.ok p.tree, p)), hn]
  dsimp only [Option.bind_some]
  rw [hi]
  dsimp only
  cases hv : l.toValue?.bind (·.convert input.type) with
  | none => rfl
  | some value =>
    dsimp only
    rw [bind_of_ok (rfl : modifyTree (·.disconnect input.id) p =
      (.ok (), { p with tree := p.tree.disconnect input.id }))]
    unfold stocked
    by_cases hd : input.default = some value
    · rw [if_pos hd, if_neg (not_not.mpr hd)]
      rfl
    · rw [if_neg hd, if_pos hd]
      rfl

theorem edit_reconnect {source target : SocketRef} : edit .link (Tree.reconnect source target) p =
    match (p.tree.disconnect target.socket).linkFault? source target with
    | some fault =>
      (.error (.link fault), { p with tree :=
        { p.tree.disconnect target.socket with
          links := (p.tree.disconnect target.socket).links ++
            p.tree.links.filter (·.target.socket == target.socket) } })
    | none =>
      (.ok (), { p with tree := (p.tree.disconnect target.socket).addLink source target }) := by
  unfold edit
  rw [Tree.reconnect_run]
  cases (p.tree.disconnect target.socket).linkFault? source target <;> rfl

/-- An input that holds its operand is left alone. -/
theorem wire_of_fed (hn : p.tree.node? id = some n) (hi : n.inputs[slot]? = some input)
    (h : p.tree.Fed input operand) :
    wire id slot operand p = (.ok (), p) := by
  cases operand with
  | handle g => rw [wire_handle hn hi, if_neg h.1, if_pos h.2]
  | literal l =>
    obtain ⟨hfree, hsome, hv⟩ := h
    obtain ⟨value, hd⟩ := Option.isSome_iff_exists.mp hsome
    rw [wire_literal hn hi, hv, hd]
    dsimp only
    rw [stocked, if_pos hd, Tree.disconnect_eq_self hfree]

theorem wireAll_of_fed (h : p.tree.FedAll id inputs) : wireAll id inputs p = (.ok (), p) := by
  induction inputs with
  | nil => rfl
  | cons entry rest ih =>
    obtain ⟨slot, operand⟩ := entry
    obtain ⟨n, input, hn, hi, hf⟩ := h slot operand List.mem_cons_self
    show (wire id slot operand >>= fun _ => wireAll id rest) p = _
    rw [bind_of_ok (wire_of_fed hn hi hf)]
    exact ih fun slot operand hm => h slot operand (List.mem_cons_of_mem _ hm)

theorem alike_restored (value : Value) (n : Node) : (restored slot value n).Alike n :=
  ⟨(Node.alike_setInputDefault n slot value).1, rfl, (Node.alike_setInputDefault n slot value).3,
    rfl⟩

theorem rewired_restored (value : Value) (n : Node) :
    n.Rewired (· = slot) (restored slot value n) where
  shell := rfl
  sockets := by
    apply map_modify_of_congr
    intro s
    rfl
  others := by
    intro i hi
    show (n.inputs.modify slot _)[i]? = _
    rw [List.getElem?_modify]
    simp [Ne.symm hi]

theorem wires_of_links {links : List Link} {supply : Nat} (hn : t.node? id = some n)
    (hi : n.inputs[slot]? = some input) (hs : t.supply ≤ supply)
    (hf : ∀ y, y ≠ input.id → ({ t with links, supply } : Tree).feedOf? y = t.feedOf? y) :
    t.Wires (· = slot) id { t with links, supply } where
  editor := rfl
  boundary := rfl
  ids := rfl
  others := fun _ _ => rfl
  own := fun n hn => ⟨n, hn, .refl n, rfl, rfl⟩
  parent := Tree.Local.refl.parent
  feeds := by
    intro y hy
    refine hf y ?_
    rintro rfl
    exact hy n hn (List.mem_map_of_mem (List.mem_of_getElem? hi))
  supply := hs
  active := rfl
  rewired := fun n hn => ⟨n, hn, .refl n⟩
  fed := by
    intro m y hm hy
    cases hn.symm.trans hm
    exact hf y fun h => hy slot input rfl hi h.symm

theorem wires_disconnect (hn : t.node? id = some n) (hi : n.inputs[slot]? = some input) :
    t.Wires (· = slot) id (t.disconnect input.id) :=
  wires_of_links hn hi (Nat.le_refl _) fun _ hy => (Tree.feedOf?_disconnect ..).trans (if_neg hy)

theorem wires_restored (value : Value) (t : Tree) :
    t.Wires (· = slot) id (t.modifyNode id (restored slot value)) :=
  { Tree.Local.modifyNode (f := restored slot value) (fun _ => rfl) (alike_restored value)
      (fun _ => ⟨rfl, rfl, rfl⟩) with
    active := rfl
    rewired := by
      intro n hn
      refine ⟨_, ?_, rewired_restored value n⟩
      rw [Tree.node?_modifyNode (by intro n; rfl), hn]
      simp
    fed := fun _ _ _ _ => rfl }

theorem wires_reconnected (hn : t.node? id = some n) (hi : n.inputs[slot]? = some input)
    (a : SocketRef) :
    t.Wires (· = slot) id ((t.disconnect input.id).addLink a ⟨id, input.id⟩) :=
  wires_of_links hn hi (Nat.le_succ _) fun _ hy =>
    (Tree.feedOf?_reconnected (t := t) (b := ⟨id, input.id⟩)).trans (if_neg hy)

/-- What a successful wiring does: it changes the input alone, which then holds
the operand. -/
theorem wire_spec {u : Unit} (hs : p.tree.Sane) (h : wire id slot operand p = (.ok u, p')) :
    ∃ t, p' = { p with tree := t } ∧ t.Sane ∧
      p.tree.Wires (· = slot) id t ∧ t.FedAll id [(slot, operand)] := by
  have fedAll : ∀ {t : Tree} {n' : Node} {input' : Socket}, t.node? id = some n' →
      n'.inputs[slot]? = some input' →
      t.Fed input' operand → t.FedAll id [(slot, operand)] := by
    intro t n' input' hn' hi' hf slot' operand' hm
    obtain ⟨rfl, rfl⟩ := Prod.mk.inj (List.mem_singleton.mp hm)
    exact ⟨n', input', hn', hi', hf⟩
  cases hb : (p.tree.node? id).bind (·.inputs[slot]?) with
  | none =>
    rw [wire_missing hb] at h
    cases h
  | some input =>
    obtain ⟨n, hn, hi⟩ := Option.bind_eq_some_iff.mp hb
    cases operand with
    | handle g =>
      rw [wire_handle hn hi] at h
      by_cases hk : g.kind = .output
      · rw [if_pos hk] at h
        cases h
      rw [if_neg hk] at h
      by_cases hsource : p.tree.sourceOf? input.id = some g.socket
      · rw [if_pos hsource] at h
        cases h
        exact ⟨p.tree, rfl, hs, .refl, fedAll hn hi ⟨hk, hsource⟩⟩
      · rw [if_neg hsource, edit_reconnect] at h
        cases hl : (p.tree.disconnect input.id).linkFault? g.socket ⟨id, input.id⟩ with
        | some fault =>
          rw [hl] at h
          cases h
        | none =>
          rw [hl] at h
          cases h
          refine ⟨_, rfl, hs.reconnected hl, wires_reconnected hn hi g.socket,
            fedAll hn hi ⟨hk, ?_⟩⟩
          rw [Tree.sourceOf?, Tree.feedOf?_reconnected, if_pos rfl]
          rfl
    | literal l =>
      rw [wire_literal hn hi] at h
      cases hv : l.toValue?.bind (·.convert input.type) with
      | none =>
        rw [hv] at h
        cases h
      | some value =>
        rw [hv] at h
        cases h
        unfold stocked
        have hfree : (p.tree.disconnect input.id).feedOf? input.id = none := by
          rw [Tree.feedOf?_disconnect, if_pos rfl]
        split
        · next hd =>
          exact ⟨_, rfl, hs.disconnect _, wires_disconnect hn hi,
            fedAll hn hi ⟨hfree, by rw [hd]; rfl, by rw [hv, hd]⟩⟩
        · refine ⟨_, rfl, (hs.disconnect _).modifyNode (fun _ => rfl) (alike_restored value),
            (wires_disconnect hn hi).trans (wires_restored value _), ?_⟩
          refine @fedAll _ (restored slot value n) { input with default := some value } ?_ ?_
            ⟨hfree, rfl, hv⟩
          · rw [Tree.node?_modifyNode (by intro n; rfl)]
            show (p.tree.node? id).map _ = _
            rw [hn]
            simp
          · show (n.inputs.modify slot _)[slot]? = _
            rw [List.getElem?_modify_eq, hi]
            rfl

theorem wireAll_spec {u : Unit} (hs : p.tree.Sane) (hd : (inputs.map (·.1)).Nodup)
    (h : wireAll id inputs p = (.ok u, p')) :
    ∃ t, p' = { p with tree := t } ∧ t.Sane ∧
      p.tree.Wires (· ∈ inputs.map (·.1)) id t ∧ t.FedAll id inputs := by
  induction inputs generalizing p with
  | nil =>
    cases h
    exact ⟨_, rfl, hs, .refl, fun _ _ hm => by cases hm⟩
  | cons entry rest ih =>
    obtain ⟨slot, operand⟩ := entry
    rw [List.map_cons, List.nodup_cons] at hd
    obtain ⟨u, p₁, h₁, h₂⟩ := bind_eq_ok.mp h
    obtain ⟨t₁, rfl, hs₁, hw₁, hf₁⟩ := wire_spec hs h₁
    obtain ⟨t₂, rfl, hs₂, hw₂, hf₂⟩ := ih hs₁ hd.2 h₂
    refine ⟨t₂, rfl, hs₂, ?_, ?_⟩
    · exact (hw₁.mono fun i hi => by simp [hi]).trans (hw₂.mono fun i hi => by
        simp only [List.map_cons, List.mem_cons]
        exact .inr hi)
    · intro slot' operand' hm
      rcases List.mem_cons.mp hm with hm | hm
      · refine hf₁.wires hs₁ hw₂ ?_ slot' operand' (List.mem_singleton.mpr hm)
        intro i o hio hi
        obtain ⟨rfl, -⟩ := Prod.mk.inj (List.mem_singleton.mp hio)
        exact hd.1 hi
      · exact hf₂ slot' operand' hm

end Pass

end FormulaGraph
