import FormulaGraph.Proofs.Graph.Paths
import FormulaGraph.Proofs.Graph.ReadBack
import FormulaGraph.Proofs.Pass.Wiring

/-!
Links that are always possible: from a set of nodes that read from each other
only into a node outside of it. Such a link fits if both sockets hold numbers or
vectors, and it closes no loop.
-/

namespace FormulaGraph

open Run

namespace Tree

variable {t t' : Tree} {C : NodeId → Prop} {a b : SocketRef} {id : NodeId} {n m : Node}
  {o i : Socket}

theorem Closed.source (hc : t.Closed C) (hs : t.Sane) {l : Link} (hl : l ∈ t.links)
    (ht : C l.target.node) : C l.source.node := by
  obtain ⟨-, n, hn, hmem⟩ := hs.ends l hl
  refine hc _ n _ l.source ht hn hmem ?_
  rw [sourceOf?, feedOf?_of_mem hs.single hl]
  rfl

theorem Closed.of_links (hs : t.Sane) (h : ∀ l ∈ t.links, C l.target.node → C l.source.node) :
    t.Closed C := by
  intro id n x r hid hn hx hr
  obtain ⟨l, hl, rfl⟩ := Option.map_eq_some_iff.mp hr
  have htarget := target_of_feedOf? hl
  have hmem := mem_of_feedOf? hl
  obtain ⟨-, m, hm, hy⟩ := hs.ends l hmem
  refine h l hmem ?_
  rw [hs.owner _ id m n _ hm hn (List.mem_append_left _ hy)
    (List.mem_append_left _ (htarget ▸ hx))]
  exact hid

theorem Closed.keeps (hc : t.Closed C) (hk : Keeps C t t') : t'.Closed C := by
  intro id n' x r hid hn' hx hr
  obtain ⟨n, hn, ho⟩ := node?_of_bare? (hk.nodes id hid).symm hn'
  have hin : n.inputs = n'.inputs := show n.orphan.inputs = n'.orphan.inputs by rw [ho]
  have hx : x ∈ n.inputIds := by
    rw [Node.inputIds, hin]
    exact hx
  rw [hk.feeds id n x hid hn hx fun r' hr' => hc id n x r' hid hn hx hr'] at hr
  exact hc id n x r hid hn hx hr

theorem Keeps.symm (hk : Keeps C t t') (hc : t.Closed C) : Keeps C t' t where
  nodes := fun id hid => (hk.nodes id hid).symm
  feeds := by
    intro id n' x hid hn' hx _
    obtain ⟨n, hn, ho⟩ := node?_of_bare? (hk.nodes id hid).symm hn'
    rw [← (Node.alike_of_orphan ho).inputs] at hx
    exact (hk.feeds id n x hid hn hx fun r hr => hc id n x r hid hn hx hr).symm

theorem Reads.iff_of_keeps (hc : t.Closed C) (hk : Keeps C t t') (ha : C a.node) {m : Meaning} :
    t'.Reads (.output a) m ↔ t.Reads (.output a) m :=
  ⟨fun h => h.keeps (hc.keeps hk) (hk.symm hc) ha, fun h => h.keeps hc hk ha⟩

theorem not_dependsOn (hs : t.Sane) (hc : t.Closed C) {x y : NodeId} (hx : C x) (hy : ¬C y) :
    t.dependsOn x y = false := by
  rw [Bool.eq_false_iff]
  intro hdep
  refine hy (Relation.ReflTransGen.head_induction_on (dependsOn_iff.mp hdep) hx ?_)
  rintro a b ⟨l, hl, rfl, rfl⟩ - hb
  exact hc.source hs hl hb

theorem Sane.socket?_eq (hs : t.Sane) (hn : t.node? id = some n) {s : Socket}
    (h : s ∈ n.inputs ++ n.outputs) : n.socket? s.id = some s := by
  unfold Node.socket?
  cases hf : (n.inputs ++ n.outputs).find? (·.id == s.id) with
  | none =>
    have := List.find?_eq_none.mp hf s h
    simp at this
  | some s' =>
    have hd : ((n.inputs ++ n.outputs).map (·.id)).Nodup := by
      rw [List.map_append]
      exact hs.distinct id n hn
    have hid : s'.id = s.id := by simpa using List.find?_some hf
    rw [List.inj_on_of_nodup_map hd (List.mem_of_find?_eq_some hf) h hid]

/-- A link out of closed nodes is possible. -/
theorem linkFault?_of_closed (hs : t.Sane) (hc : t.Closed C) (hn : t.node? a.node = some n)
    (ho : o ∈ n.outputs) (hoa : o.id = a.socket) (hm : t.node? b.node = some m)
    (hi : i ∈ m.inputs) (hib : i.id = b.socket) (hfits : o.type.fits i.type = true)
    (ha : C a.node) (hb : ¬C b.node) : (t.disconnect b.socket).linkFault? a b = none := by
  have hos : o.side = .output := (hs.sided _ n hn).output ho
  have his : i.side = .input := ((hs.sided _ m hm).input hi).1
  have hsource := hs.socket?_eq hn (List.mem_append_right _ ho)
  have htarget := hs.socket?_eq hm (List.mem_append_left _ hi)
  rw [hoa] at hsource
  rw [hib] at htarget
  refine linkFault?_eq_none_iff.mpr
    ⟨⟨i, ⟨n, m, o, hn, hm, hsource, htarget, hos, his, hfits⟩, .inr ?_⟩, ?_, ?_⟩
  · rw [← feedOf?_eq_none_iff, feedOf?_disconnect, if_pos rfl]
  · rintro heq
    exact hb (heq ▸ ha)
  · refine not_dependsOn (hs.disconnect _) ?_ ha hb
    refine .of_links (hs.disconnect _) fun l hl => ?_
    exact hc.source hs (List.mem_of_mem_filter hl)

end Tree

theorem SocketType.fits_of_numeric {s t : SocketType} (hs : s.isNumeric = true)
    (ht : t.isNumeric = true) : s.fits t = true := by
  unfold fits
  rw [hs, ht]
  simp

theorem Value.exists_convert (v : Value) {type : SocketType} (h : type.isNumeric = true) :
    ∃ w, v.convert type = some w := by
  cases type with
  | rotation | matrix => cases h
  | color => cases v <;> exact ⟨_, rfl⟩
  | bool | int | float | vector => exact ⟨_, rfl⟩

namespace Pass

variable {p p' : Pass} {C : NodeId → Prop} {id : NodeId}

/-- A number, or a handle on a number or vector of closed nodes. -/
def Linkable (t : Tree) (C : NodeId → Prop) : Operand → Prop
  | .handle h => h.kind ≠ .output ∧ C h.node ∧
      ∃ type, t.outputType? h.socket = some type ∧ type.isNumeric = true
  | .literal l => ∃ x, l = .scalar x

theorem Linkable.keeps {t t' : Tree} {o : Operand} (h : Linkable t C o) (hk : Tree.Keeps C t t') :
    Linkable t' C o := by
  cases o with
  | handle g =>
    obtain ⟨hkind, hc, type, htype, hnumeric⟩ := h
    exact ⟨hkind, hc, type, (Tree.outputType?_of_keeps hk hc).trans htype, hnumeric⟩
  | literal l => exact h

/-- Wiring into a node outside of closed nodes succeeds. -/
theorem wire_total {slot : Nat} {operand : Operand} {n : Node} {input : Socket}
    (hs : p.tree.Sane) (hc : p.tree.Closed C) (hid : ¬C id) (hn : p.tree.node? id = some n)
    (hi : n.inputs[slot]? = some input) (htype : input.type.isNumeric = true)
    (ho : Linkable p.tree C operand) : ∃ p', wire id slot operand p = (.ok (), p') := by
  cases operand with
  | literal l =>
    obtain ⟨x, rfl⟩ := ho
    obtain ⟨w, hw⟩ := (Value.float x).exists_convert htype
    have : (Literal.scalar x).toValue?.bind (·.convert input.type) = some w := hw
    rw [wire_literal hn hi, this]
    exact ⟨_, rfl⟩
  | handle g =>
    obtain ⟨hkind, hg, type, hsource, hnumeric⟩ := ho
    rw [wire_handle hn hi, if_neg hkind]
    split
    · exact ⟨_, rfl⟩
    · obtain ⟨m, hm, hf⟩ := Option.bind_eq_some_iff.mp hsource
      obtain ⟨o, ho, rfl⟩ := Option.map_eq_some_iff.mp hf
      have hfault := Tree.linkFault?_of_closed (a := g.socket) (b := ⟨id, input.id⟩) hs hc hm
        (List.mem_of_find?_eq_some ho) (by simpa using List.find?_some ho) hn
        (List.mem_of_getElem? hi) rfl (SocketType.fits_of_numeric hnumeric htype) hg hid
      rw [edit_reconnect, hfault]
      exact ⟨_, rfl⟩

theorem wireAll_total {inputs : List (Nat × Operand)} (hs : p.tree.Sane) (hc : p.tree.Closed C)
    (hid : ¬C id) (hi : ∀ e ∈ inputs, ∃ n input, p.tree.node? id = some n ∧
      n.inputs[e.1]? = some input ∧ input.type.isNumeric = true)
    (ho : ∀ e ∈ inputs, Linkable p.tree C e.2) : ∃ p', wireAll id inputs p = (.ok (), p') := by
  induction inputs generalizing p with
  | nil => exact ⟨p, rfl⟩
  | cons e rest ih =>
    obtain ⟨n, input, hn, hinput, htype⟩ := hi e List.mem_cons_self
    obtain ⟨p₁, h₁⟩ := wire_total hs hc hid hn hinput htype (ho e List.mem_cons_self)
    obtain ⟨t, rfl, hs₁, hw, -⟩ := wire_spec hs h₁
    have hk : Tree.Keeps C p.tree t := hw.toLocal.keeps hs hid
    obtain ⟨p₂, h₂⟩ := ih (p := { p with tree := t }) hs₁ (hc.keeps hk)
      (by
        intro e' he'
        obtain ⟨n', input', hn', hinput', htype'⟩ := hi e' (List.mem_cons_of_mem _ he')
        obtain ⟨n'', hn'', hr⟩ := hw.rewired n' hn'
        obtain ⟨s, hs', -, -, hst⟩ := hr.socket hinput'
        exact ⟨n'', s, hn'', hs', by rw [hst]; exact htype'⟩)
      fun e' he' => (ho e' (List.mem_cons_of_mem _ he')).keeps hk
    refine ⟨p₂, ?_⟩
    show (wire id e.1 e.2 >>= fun _ => wireAll id rest) p = _
    rw [bind_of_ok h₁]
    exact h₂

end Pass

end FormulaGraph
