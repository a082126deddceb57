import FormulaGraph.Proofs.Graph.Respects
import FormulaGraph.Proofs.Pass.Lockstep

/-!
What a pass leaves to its host. A node that is neither a group node nor
generated stays as it is, with its links to others like it. Only its parent may
change: a frame that the pass removes is its parent no longer, and a frame
around generated nodes moves with them.
-/

namespace FormulaGraph

open Run

namespace Pass

def sparing (t₀ : Tree) : Pairing where
  tree t t' := t' = t ∧ t₀.Respects t
  node x x' := x' = x ∧ t₀.Made x
  socket x x' := x' = x ∧ ¬t₀.OwnSocket x

variable {t₀ : Tree}

theorem forall₂_sparing {ids ids' : List NodeId} (h : List.Forall₂ (sparing t₀).node ids ids') :
    ids' = ids ∧ ∀ x ∈ ids, t₀.Made x := by
  induction h with
  | nil => exact ⟨rfl, by simp⟩
  | cons hx _ ih =>
    obtain ⟨rfl, hm⟩ := hx
    refine ⟨congrArg _ ih.1, ?_⟩
    intro y hy
    rcases List.mem_cons.mp hy with rfl | hy
    · exact hm
    · exact ih.2 y hy

theorem ref_sparing {r r' : SocketRef} (h : (sparing t₀).Ref r r') :
    r' = r ∧ ¬t₀.OwnSocket r.socket := by
  obtain ⟨hn, hs⟩ := h
  obtain ⟨a, b⟩ := r
  obtain ⟨a', b'⟩ := r'
  have ha : a' = a := hn.elim (·.1) (·.1)
  have hb : b' = b := hs.1
  rw [ha, hb]
  exact ⟨rfl, hs.2⟩

theorem lawful_sparing (hr : t₀.Regular) : (sparing t₀).Lawful where
  unique := by
    constructor
    · rintro a b c ⟨rfl, -⟩ ⟨rfl, -⟩
      rfl
    · rintro a b c ⟨rfl, -⟩ ⟨rfl, -⟩
      rfl
  not_group := by
    rintro _ x ⟨rfl, hm⟩
    exact ⟨hm.1, hm.1⟩
  node? := by
    rintro _ t y x ⟨rfl, ht⟩ hx
    obtain ⟨rfl, hout⟩ : x = y ∧ ∀ n, t.node? y = some n → n.isOwn = false := by
      rcases hx with ⟨rfl, hm⟩ | ⟨rfl, hg⟩
      · exact ⟨rfl, fun n hn => ht.not_own hr hm (Tree.mem_of_node? hn) (Tree.id_of_node? hn)⟩
      · exact ⟨rfl, fun n hn => by simp [Node.isOwn, Tree.id_of_node? hn, hg]⟩
    cases hn : t.node? x with
    | none => exact .none
    | some n =>
      have hs := ht.sockets n (Tree.mem_of_node? hn) (hout n hn)
      refine .some ⟨rfl, rfl, ?_, ?_⟩
      · refine List.forall₂_same.mpr fun s hmem => ⟨⟨rfl, hs _ ?_⟩, rfl, rfl⟩
        exact List.mem_append_left _ (List.mem_map_of_mem hmem)
      · refine List.forall₂_same.mpr fun s hmem => ⟨⟨rfl, hs _ ?_⟩, rfl, rfl⟩
        exact List.mem_append_right _ (List.mem_map_of_mem hmem)
  group_type := by
    rintro _ t x n ⟨rfl, ht⟩ hg hn
    exact ht.groupTypes n (Tree.mem_of_node? hn) (Tree.id_of_node? hn ▸ hg)
  editor := by
    rintro _ t ⟨rfl, -⟩
    rfl
  tagged := by
    rintro _ t ⟨rfl, ht⟩
    refine List.forall₂_same.mpr fun n hn => ⟨rfl, ?_⟩
    obtain ⟨hn, htag⟩ := List.mem_filter.mp hn
    rcases ht.made n hn htag with hg | hm
    · exact .inr ⟨rfl, hg⟩
    · exact .inl ⟨rfl, hm⟩
  setActive := by
    rintro _ t _ x ⟨rfl, ht⟩ ⟨rfl, -⟩
    exact ⟨rfl, ht.setActive hr _⟩
  addNode := by
    rintro _ t tag type settings ⟨rfl, ht⟩ htag
    exact ⟨⟨rfl, ht.addNode hr type rfl htag⟩, rfl, hr.made_supply ht.supply⟩
  removeNode := by
    rintro _ t _ x ⟨rfl, ht⟩ ⟨rfl, hm⟩
    exact ⟨rfl, ht.removeNode hr hm⟩
  touch := by
    rintro _ t _ x touch ⟨rfl, ht⟩ ⟨rfl, hm⟩
    refine ⟨rfl, ht.modifyNode hr (fun n => ?_) (fun n => ?_)
      (fun n => (alike_touch touch n).socketIds) fun n hn hid => ht.not_own hr hm hn hid⟩
    · cases touch <;> exact ⟨rfl, rfl, rfl⟩
    · cases touch <;> rfl
  framed := by
    rintro _ t _ x members members' label ⟨rfl, ht⟩ ⟨rfl, hm⟩ hmembers
    obtain ⟨rfl, hall⟩ := forall₂_sparing hmembers
    exact ⟨rfl, ht.framedTree hr hm label hall⟩
  besideActive := by
    rintro _ t ⟨rfl, ht⟩
    refine ⟨rfl, ?_⟩
    unfold besideActive
    split
    · exact ht
    · next anchor _ =>
      refine ht.modifyNode hr (f := following anchor) (fun _ => ⟨rfl, rfl, rfl⟩) (fun _ => rfl)
        (fun _ => rfl) fun n _ hid => ?_
      rw [Node.isOwn, hid]
      rfl
  feed := by
    rintro _ t _ x r r' ⟨rfl, -⟩ ⟨rfl, -⟩ hrr
    rw [(ref_sparing hrr).1]
  disconnect := by
    rintro _ t _ x ⟨rfl, ht⟩ ⟨rfl, hx⟩
    exact ⟨rfl, ht.disconnect hr hx⟩
  reconnect := by
    intro a a' b b' ha hb
    obtain ⟨rfl, hb⟩ := ref_sparing hb
    rw [(ref_sparing ha).1]
    refine .edit ?_
    rintro _ t ⟨rfl, ht⟩
    exact ⟨.self fun _ _ => trivial, rfl, ht.reconnect hr hb⟩
  boundarySocket := by
    rintro _ t _ x ⟨rfl, ht⟩ ⟨rfl, hx⟩
    cases hs : t.boundarySocket? x with
    | none => exact .none
    | some s => exact .some ⟨⟨rfl, ht.boundary s (List.mem_of_find?_eq_some hs)⟩, rfl, rfl⟩
  boundaryIndex := by
    rintro _ t _ x ⟨rfl, -⟩ ⟨rfl, -⟩
    rfl
  socketFor := by
    intro side name type
    refine .edit ?_
    rintro _ t ⟨rfl, ht⟩
    have hs := ht.socketFor hr side name type
    exact ⟨.self fun y hy => ⟨rfl, hs.2 y (ok_of_mapError hy)⟩, rfl, hs.1⟩
  setSocketDefault := by
    rintro _ x value ⟨rfl, hx⟩
    refine .edit ?_
    rintro _ t ⟨rfl, ht⟩
    exact ⟨.self fun _ _ => trivial, rfl, ht.setSocketDefault hr x value⟩
  keepInputs := by
    rintro _ t names ⟨rfl, ht⟩
    exact ⟨rfl, ht.keepInputs hr names⟩

end Pass

namespace Tree

variable {t : Tree}

theorem Respects.realize (h : t.Regular) (unknowns : List String) (term : Term)
    (options : Options) : t.Respects (realize unknowns term options t).2 := by
  rw [realize_run]
  split
  · exact h.respects
  · have hlawful := Pass.lawful_sparing h
    have hstart := hlawful.start ⟨rfl, h.respects.setActive h _⟩
    exact (hlawful.synthesis unknowns term options _ _ hstart).2.tree.2

theorem Respects.compile (h : t.Regular) (text : String) (options : Options) :
    t.Respects (compile text options t).2 := by
  rw [compile_run]
  split
  · exact .realize h _ _ _
  · exact h.respects

/-- Whether compiling succeeds or not, every node of the host is still there,
and all that may differ is its parent. It keeps its frame as long as that is
there. In no frame (any more), it may be put into a generated one, but only if
it is itself around generated nodes. Links between nodes of the host stay. -/
theorem compile_spares_host (h : t.Regular) (text : String) (options : Options) :
    (∀ n ∈ t.nodes, n.isOwn = true → ∃ n' ∈ (compile text options t).2.nodes,
      n'.orphan = n.orphan ∧
        (n'.parent = n.parent ∨ t.Released (compile text options t).2 n ∧
          (n'.parent = none ∨ t.Encloses n.id ∧ ∃ f, n'.parent = some f ∧ t.Made f))) ∧
      ∀ l ∈ t.links, ∀ a b, t.node? l.source.node = some a → t.node? l.target.node = some b →
        a.isOwn = true → b.isOwn = true → l ∈ (compile text options t).2.links := by
  have hs := Respects.compile h text options
  constructor
  · intro n hn hown
    obtain ⟨n', hn', hstays⟩ := forall₂_mem_left hs.own (List.mem_filter.mpr ⟨hn, hown⟩)
    exact ⟨n', (List.mem_filter.mp hn').1, hstays.orphan, hstays.parent⟩
  · intro l hl a b ha hb hown hown'
    obtain ⟨⟨n, hn, hx⟩, m, hm, hy⟩ := h.sane.ends l hl
    rw [ha] at hn
    rw [hb] at hm
    cases hn
    cases hm
    exact hs.links l hl ⟨a, mem_of_node? ha, hown, id_of_node? ha, List.mem_append_right _ hx⟩
      ⟨b, mem_of_node? hb, hown', id_of_node? hb, List.mem_append_left _ hy⟩

/-- A tree whose host has put a generated node into a frame of its own. -/
def framedByHost : Tree :=
  ((compile "-a" {} (empty .geometry)).2.addNode .frame { name := some "H" }).1.setParent ⟨12⟩ ⟨3⟩

theorem regular_framedByHost : framedByHost.Regular := by
  have hosted : framedByHost.Hosted :=
    ((hosted_empty .geometry).compile "-a" {}).addNode.setParent (by decide +kernel)
  exact hosted.regular (nested_of_rank (·.index) (by decide +kernel)) (by decide +kernel)

theorem compile_spares_host_framed :
    framedByHost.Regular ∧ ∃ n ∈ framedByHost.nodes, n.name = "H" ∧ n.isOwn = true ∧
      ∃ n' ∈ (compile "b/2" {} framedByHost).2.nodes, n'.orphan = n.orphan ∧
        (n'.parent = none ∨
          framedByHost.Encloses n.id ∧ ∃ f, n'.parent = some f ∧ framedByHost.Made f) := by
  obtain ⟨n, hn, hname, hown, hfree⟩ :
      ∃ n ∈ framedByHost.nodes, n.name = "H" ∧ n.isOwn = true ∧ n.parent = none := by
    decide +kernel
  obtain ⟨n', hn', horphan, hparent⟩ :=
    (compile_spares_host regular_framedByHost "b/2" {}).1 n hn hown
  refine ⟨regular_framedByHost, n, hn, hname, hown, n', hn', horphan, ?_⟩
  exact hparent.elim (fun hp => .inl (hp.trans hfree)) (·.2)

/-- Compiling once more puts the frame of the host into a generated frame. -/
theorem compile_moves_host_frame :
    (framedByHost.nodes.filter Node.isOwn).map (fun n => (n.name, n.parent)) = [("H", none)] ∧
      ((compile "-a" {} framedByHost).2.nodes.filter Node.isOwn).map
        (fun n => (n.name, n.parent)) = [("H", some ⟨9⟩)] := by
  decide +kernel

end Tree

end FormulaGraph
