import FormulaGraph.Proofs.Graph.Keeps

/-!
Edits of the outputs of a tree keep all nodes but the one that shows them, and
leave the sockets of other names alone.
-/

namespace FormulaGraph.Tree

open Run

variable {s : Socket} {t t' : Tree} {side : Side} {name : String} {type : SocketType} {x : SocketId}
  {side' : Side} {name' : String} {D : NodeId → Prop}

theorem boundaryNamed?_map_of_ne (hg : t.Grouped) (hb : t.boundaryNamed? side name = some s)
    {f : Socket → Socket} (hf : ∀ s, (f s).side = s.side ∧ (f s).name = s.name) {t₁ : Tree}
    (ht₁ : t₁.boundary = t.boundary.map fun r => if r.id == s.id then f r else r)
    (hne : side' ≠ side ∨ name' ≠ name) :
    t₁.boundaryNamed? side' name' = t.boundaryNamed? side' name' := by
  rw [boundaryNamed?_map hf ht₁]
  cases hr : t.boundaryNamed? side' name' with
  | none => rfl
  | some r =>
    have : r.id ≠ s.id := by
      intro hid
      have heq := List.inj_on_of_nodup_map hg.distinct (mem_of_boundaryNamed? hr)
        (mem_of_boundaryNamed? hb) hid
      obtain ⟨hside, hname⟩ := of_boundaryNamed? hr
      obtain ⟨hside', hname'⟩ := of_boundaryNamed? hb
      rw [heq] at hside hname
      rcases hne with hne | hne
      · exact hne (hside.symm.trans hside')
      · exact hne (hname.symm.trans hname')
    simp [this]

/-- Making sure of the socket of a name does not change those of other names. -/
theorem socketFor_others (hg : t.Grouped) (h : socketFor side name type t = (.ok x, t'))
    (hne : side' ≠ side ∨ name' ≠ name) :
    t'.boundaryNamed? side' name' = t.boundaryNamed? side' name' := by
  rw [socketFor_run hg.distinct] at h
  cases ha : t.adjustType type with
  | error fault =>
    rw [ha] at h
    cases h
  | ok wanted =>
    rw [ha] at h
    dsimp only at h
    cases hb : t.boundaryNamed? side name with
    | none =>
      rw [hb] at h
      cases h
      show List.find? _ (t.boundary ++ [_]) = _
      rw [List.find?_append]
      have : (side == side' && name == name') = false := by
        rcases hne with hne | hne
        · simp [Ne.symm hne]
        · simp [Ne.symm hne]
      simp only [List.find?_cons, this, List.find?_nil, Option.or_none]
      rfl
    | some s =>
      rw [hb] at h
      by_cases hw : s.type = wanted
      · simp only [hw, if_true] at h
        cases h
        rfl
      · simp only [hw, if_false] at h
        cases h
        obtain ⟨links, heq, -, -⟩ := t.retyped_eq s.id wanted
        rw [heq]
        exact boundaryNamed?_map_of_ne hg hb (f := retype wanted) (fun s => ⟨rfl, rfl⟩) rfl hne

theorem socketFor_id (hg : t.Grouped) (h : socketFor side name type t = (.ok x, t'))
    (hb : t.boundaryNamed? side name = some s) : x = s.id := by
  rw [socketFor_run hg.distinct, hb] at h
  cases ha : t.adjustType type with
  | error fault =>
    rw [ha] at h
    cases h
  | ok wanted =>
    rw [ha] at h
    cases h
    rfl

theorem socketFor_of_named (hg : t.Grouped) (hb : t.boundaryNamed? side name = some s)
    (ha : t.adjustType type = .ok s.type) : socketFor side name type t = (.ok s.id, t) := by
  rw [socketFor_run hg.distinct, ha, hb]
  simp

def redefault (value : Option Value) (s : Socket) : Socket := { s with default := value }

theorem setSocketDefault_run (hs : t.boundarySocket? x = some s) (value : Value) :
    setSocketDefault x value t =
      if s.default = value.convert s.type then (.ok false, t)
      else (.ok true, t.modifySocket x (redefault (value.convert s.type))) := by
  unfold setSocketDefault
  rw [bind_of_ok (get_run t), hs]
  dsimp only
  by_cases h : s.default = value.convert s.type
  · rw [if_pos h, if_pos h]
    rfl
  · rw [if_neg h, if_neg h]
    rfl

theorem setSocketDefault_of_missing (hs : t.boundarySocket? x = none) (value : Value) :
    setSocketDefault x value t = (.error (.missing x), t) := by
  unfold setSocketDefault
  rw [bind_of_ok (get_run t), hs]
  rfl

theorem reboundary_redefault (hs : t.Sane) (hg : t.Grouped) (value : Option Value) :
    Reboundary (· = x) t (t.modifySocket x (redefault value)) := by
  refine .of_redraws hs hg (.of_map hs hg ?_ rfl rfl (List.Sublist.refl _) rfl) rfl rfl
    (fun l hl _ => hl) fun s h hne => mem_map_of_other h hne
  intro s
  split <;> exact ⟨rfl, rfl⟩

theorem hasInput_of_mem (hg : t.Grouped) (hs : s ∈ t.boundary) (hside : s.side = .output) :
    t.HasInput ⟨.groupOutput, s.id⟩ := by
  obtain ⟨o, ho, ho', -⟩ := hg.output
  refine ⟨o, ho, ?_⟩
  rw [Node.inputIds, ho']
  exact mem_ids_shownInside.mpr ⟨s, hs, hside, rfl⟩

theorem Sane.output_ne_input (hs : t.Sane) {a b : SocketRef} (ha : t.HasOutput a)
    (hb : t.HasInput b) : a.socket ≠ b.socket := by
  obtain ⟨n, hn, hx⟩ := ha
  obtain ⟨m, hm, hy⟩ := hb
  intro heq
  rw [heq] at hx
  have hid := hs.owner _ _ n m _ hn hm (List.mem_append_right _ hx) (List.mem_append_left _ hy)
  rw [hid, hm] at hn
  cases hn
  exact (List.nodup_append.mp (hs.distinct _ _ hm)).2.2 _ hy _ hx rfl

/-- Edits of the outputs of the boundary keep the nodes that do not show them. -/
theorem Reboundary.keeps {X : SocketId → Prop} (hr : Reboundary X t t')
    (hs : t.Sane) (hg : t.Grouped) (hin : t'.socketsOn .input = t.socketsOn .input)
    (hX : ∀ x, X x → t.supply ≤ x.index ∨ t.HasInput ⟨.groupOutput, x⟩)
    (hD : ¬D .groupOutput) : Keeps D t t' := by
  have same : ∀ id, D id → t'.node? id = t.node? id := by
    intro id hid
    rw [hr.node?]
    cases hn : t.node? id with
    | none => rfl
    | some n =>
      have hne : n.id ≠ .groupOutput := by
        rw [id_of_node? hn]
        exact fun h => hD (h ▸ hid)
      rw [Option.map_some]
      unfold mirrored
      split
      · next hgi =>
        obtain ⟨i, hi, hi', -⟩ := hg.input
        rw [id_of_node? hn] at hgi
        rw [hgi, hi] at hn
        cases hn
        have : t'.shownInside .input = t.shownInside .input := by
          unfold shownInside
          rw [hin]
        rw [this, ← hi']
      · rfl
  constructor
  · intro id hid
    unfold bare?
    rw [same id hid]
  · intro id n y hid hn hy _
    have hne : id ≠ .groupOutput := fun h => hD (h ▸ hid)
    unfold sourceOf?
    congr 1
    cases hf : t.feedOf? y with
    | none =>
      refine List.find?_eq_none.mpr fun l hl => ?_
      exact List.find?_eq_none.mp hf l (hr.links.subset hl)
    | some l =>
      have hmem : l ∈ t'.links := by
        refine hr.kept l (mem_of_feedOf? hf) fun x hx => ?_
        have hends := hs.ends l (mem_of_feedOf? hf)
        have hsource : l.source.socket ≠ x := by
          rcases hX x hx with hnew | hin'
          · obtain ⟨m, hm, hxm⟩ := hends.1
            have := hs.socketsBelow _ m _ hm (List.mem_append_right _ hxm)
            rintro rfl
            omega
          · exact hs.output_ne_input hends.1 hin'
        have htarget : l.target.socket ≠ x := by
          rw [target_of_feedOf? hf]
          rcases hX x hx with hnew | ⟨m, hm, hxm⟩
          · have := hs.socketsBelow _ n _ hn (List.mem_append_left _ hy)
            rintro rfl
            omega
          · rintro rfl
            exact hne (hs.owner _ _ n m _ hn hm (List.mem_append_left _ hy)
              (List.mem_append_left _ hxm))
        simp [Link.touchesSocket, hsource, htarget]
      have := feedOf?_of_mem hr.sane.single hmem
      rwa [target_of_feedOf? hf] at this

theorem keeps_of_feeds (hs : t.Sane) {id : NodeId} (hx : t.HasInput ⟨id, x⟩) (hD : ¬D id)
    (hn : t'.nodes = t.nodes) (hf : ∀ y ≠ x, t'.feedOf? y = t.feedOf? y) : Keeps D t t' where
  nodes := fun _ _ => by rw [bare?, bare?, node?, node?, hn]
  feeds := by
    intro id' n y hid hn hy _
    unfold sourceOf?
    rw [hf]
    rintro rfl
    obtain ⟨m, hm, hxm⟩ := hx
    have heq : id' = id :=
      hs.owner _ _ n m _ hn hm (List.mem_append_left _ hy) (List.mem_append_left _ hxm)
    exact hD (heq ▸ hid)

theorem keeps_disconnect (hs : t.Sane) {id : NodeId} (hx : t.HasInput ⟨id, x⟩) (hD : ¬D id) :
    Keeps D t (t.disconnect x) :=
  keeps_of_feeds hs hx hD rfl fun _ hy => by rw [feedOf?_disconnect, if_neg hy]

end FormulaGraph.Tree
