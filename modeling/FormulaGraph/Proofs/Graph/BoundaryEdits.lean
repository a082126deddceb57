import FormulaGraph.Proofs.Graph.Groups

/-!
The edits of the boundary that a pass makes, by what they leave: which socket
has a name, and which links stay.
-/

namespace FormulaGraph.Tree

open Run

variable {s : Socket} {f : Socket → Socket} {t t' t₁ : Tree}

theorem Grouped.below (hg : t.Grouped) (hs : t.Sane) (h : s ∈ t.boundary) :
    s.id.index < t.supply := by
  obtain ⟨i, hi, hi', -⟩ := hg.input
  obtain ⟨o, ho, ho', -⟩ := hg.output
  cases hside : s.side with
  | input =>
    refine hs.socketsBelow _ i s.id hi (List.mem_append_right _ ?_)
    rw [Node.outputIds, hi']
    exact mem_ids_shownInside.mpr ⟨s, h, hside, rfl⟩
  | output =>
    refine hs.socketsBelow _ o s.id ho (List.mem_append_left _ ?_)
    rw [Node.inputIds, ho']
    exact mem_ids_shownInside.mpr ⟨s, h, hside, rfl⟩

/-- Changes of sockets that keep their identities and sides, with fewer links. -/
theorem Redraws.of_map (hs : t.Sane) (hg : t.Grouped)
    (hf : ∀ s, (f s).id = s.id ∧ (f s).side = s.side) (hn : t₁.nodes = t.nodes)
    (hb : t₁.boundary = t.boundary.map f) (hl : t₁.links.Sublist t.links)
    (hsup : t₁.supply = t.supply) : Redraws t t₁ where
  nodes := hn
  distinct := by
    have : (t.boundary.map f).map (·.id) = t.boundary.map (·.id) := by
      rw [List.map_map]
      exact List.map_congr_left fun s _ => (hf s).1
    rw [hb, this]
    exact hg.distinct
  origin := by
    intro s hs'
    rw [hb] at hs'
    obtain ⟨r, hr, rfl⟩ := List.mem_map.mp hs'
    exact .inl ⟨r, hr, (hf r).1.symm, (hf r).2.symm⟩
  below := by
    intro s hs'
    rw [hb] at hs'
    obtain ⟨r, hr, rfl⟩ := List.mem_map.mp hs'
    rw [(hf r).1, hsup]
    exact hg.below hs hr
  supply := Nat.le_of_eq hsup.symm
  links := hl
  kept := by
    intro s hs' h
    have := h (f s) (by rw [hb]; exact List.mem_map_of_mem hs') (hf s).1
    exact absurd (hf s).2 this

theorem Redraws.of_append (hs : t.Sane) (hg : t.Grouped) (hid : s.id = ⟨t.supply⟩)
    (hn : t₁.nodes = t.nodes) (hb : t₁.boundary = t.boundary ++ [s]) (hl : t₁.links = t.links)
    (hsup : t₁.supply = t.supply + 1) : Redraws t t₁ where
  nodes := hn
  distinct := by
    rw [hb, List.map_append, List.nodup_append]
    refine ⟨hg.distinct, by simp, ?_⟩
    intro x hx y hy hxy
    obtain ⟨r, hr, rfl⟩ := List.mem_map.mp hx
    simp only [List.map_cons, List.map_nil, List.mem_singleton] at hy
    have := hg.below hs hr
    rw [hxy, hy, hid] at this
    exact Nat.lt_irrefl _ this
  origin := by
    intro r hr
    rw [hb] at hr
    rcases List.mem_append.mp hr with hr | hr
    · exact .inl ⟨r, hr, rfl, rfl⟩
    · rw [List.mem_singleton.mp hr, hid]
      exact .inr rfl
  below := by
    intro r hr
    rw [hb] at hr
    rw [hsup]
    rcases List.mem_append.mp hr with hr | hr
    · exact Nat.lt_succ_of_lt (hg.below hs hr)
    · rw [List.mem_singleton.mp hr, hid]
      exact Nat.lt_succ_self _
  supply := by omega
  links := by rw [hl]
  kept := by
    intro r hr h
    exact absurd rfl (h r (by rw [hb]; exact List.mem_append_left _ hr) rfl)

theorem Redraws.of_remove (hs : t.Sane) (hg : t.Grouped) {x : SocketId} (hn : t₁.nodes = t.nodes)
    (hb : t₁.boundary = t.boundary.filter (·.id != x))
    (hl : t₁.links = t.links.filter (!·.touchesSocket x)) (hsup : t₁.supply = t.supply) :
    Redraws t t₁ where
  nodes := hn
  distinct := by
    rw [hb]
    exact hg.distinct.sublist (List.filter_sublist.map _)
  origin := by
    intro r hr
    rw [hb] at hr
    exact .inl ⟨r, (List.mem_filter.mp hr).1, rfl, rfl⟩
  below := by
    intro r hr
    rw [hb] at hr
    rw [hsup]
    exact hg.below hs (List.mem_filter.mp hr).1
  supply := by omega
  links := by
    rw [hl]
    exact List.filter_sublist
  kept := by
    intro s hs' h l hl'
    have hx : s.id = x := by
      by_contra hx
      have hm : s ∈ t₁.boundary := by
        rw [hb, List.mem_filter]
        exact ⟨hs', by simpa using hx⟩
      exact h s hm rfl rfl
    rw [hl, List.mem_filter] at hl'
    rw [hx]
    simpa using hl'.2

structure Reboundary (X : SocketId → Prop) (t t' : Tree) : Prop where
  sane : t'.Sane
  grouped : t'.Grouped
  editor : t'.editor = t.editor
  active : t'.active = t.active
  supply : t.supply ≤ t'.supply
  ids : t'.nodes.map (·.id) = t.nodes.map (·.id)
  node? : ∀ id, t'.node? id = (t.node? id).map t'.mirrored
  links : t'.links.Sublist t.links
  kept : ∀ l ∈ t.links, (∀ x, X x → l.touchesSocket x = false) → l ∈ t'.links
  sockets : ∀ s ∈ t.boundary, ¬X s.id → s ∈ t'.boundary

theorem mirrored_mirrored (n : Node) : t'.mirrored (t.mirrored n) = t'.mirrored n := by
  unfold mirrored
  by_cases hi : n.id = .groupInput
  · simp [hi]
  · by_cases ho : n.id = .groupOutput
    · simp [ho, groupOutput_ne_groupInput]
    · simp [hi, ho]

namespace Reboundary

variable {X Y : SocketId → Prop}

theorem refl (hs : t.Sane) (hg : t.Grouped) : Reboundary X t t where
  sane := hs
  grouped := hg
  editor := rfl
  active := rfl
  supply := Nat.le_refl _
  ids := rfl
  node? := by
    intro id
    have := node?_syncGroups (t := t) id
    rwa [hg.syncGroups_eq hs.nodes] at this
  links := List.Sublist.refl _
  kept := fun l hl _ => hl
  sockets := fun _ h _ => h

theorem trans {t'' : Tree} (h : Reboundary X t t') (h' : Reboundary X t' t'') :
    Reboundary X t t'' where
  sane := h'.sane
  grouped := h'.grouped
  editor := h'.editor.trans h.editor
  active := h'.active.trans h.active
  supply := Nat.le_trans h.supply h'.supply
  ids := h'.ids.trans h.ids
  node? := by
    intro id
    rw [h'.node?, h.node?, Option.map_map]
    congr 1
    funext n
    exact mirrored_mirrored n
  links := h'.links.trans h.links
  kept := fun l hl hx => h'.kept l (h.kept l hl hx) hx
  sockets := fun s hs hx => h'.sockets s (h.sockets s hs hx) hx

theorem mono (h : Reboundary X t t') (hxy : ∀ x, X x → Y x) : Reboundary Y t t' :=
  { h with
    kept := fun l hl hx => h.kept l hl fun x hx' => hx x (hxy x hx')
    sockets := fun s hs hx => h.sockets s hs fun hx' => hx (hxy _ hx') }

theorem of_redraws (hs : t.Sane) (hg : t.Grouped)
    (h : Redraws t t₁) (he : t₁.editor = t.editor) (ha : t₁.active = t.active)
    (hk : ∀ l ∈ t.links, (∀ x, X x → l.touchesSocket x = false) → l ∈ t₁.links)
    (hm : ∀ s ∈ t.boundary, ¬X s.id → s ∈ t₁.boundary) : Reboundary X t t₁.syncGroups where
  sane := h.sane hs hg
  grouped := h.grouped hg
  editor := he
  active := ha
  supply := h.supply
  ids := by rw [map_id_syncGroups, h.nodes]
  node? := by
    intro id
    rw [node?_syncGroups]
    have : t₁.node? id = t.node? id := by
      unfold Tree.node?
      rw [h.nodes]
    rw [this]
    rfl
  links := h.links
  kept := hk
  sockets := hm

end Reboundary

section Runs

theorem lift_run {ε α : Type} (r : Except ε α) (t : Tree) : (liftM r : Edit ε α) t = (r, t) := by
  cases r <;> rfl

def withSocket (t : Tree) (side : Side) (name : String) (type : SocketType) : Tree :=
  syncGroups
    { t with
      boundary := t.boundary ++ [⟨⟨t.supply⟩, name, side, type, none, false⟩]
      supply := t.supply + 1 }

def retype (type : SocketType) (s : Socket) : Socket :=
  { s with type := type, default := s.default.bind (·.convert type) }

def retyped (t : Tree) (x : SocketId) (type : SocketType) : Tree :=
  let t := t.modifySocket x (retype type)
  { t with links := t.links.filter fun l => !l.touchesSocket x || t.stillFits l }

theorem adjustType_idem {type wanted : SocketType} (h : t.adjustType type = .ok wanted) :
    t.adjustType wanted = .ok wanted := by
  unfold adjustType at h ⊢
  cases h' : t.editor.adjust? type with
  | none =>
    rw [h'] at h
    cases h
  | some w =>
    rw [h'] at h
    cases h
    generalize t.editor = editor at h' ⊢
    cases editor <;> cases type <;> revert h' <;> cases wanted <;> decide

theorem boundarySocket?_of_mem (hd : (t.boundary.map (·.id)).Nodup) (h : s ∈ t.boundary) :
    t.boundarySocket? s.id = some s := by
  have hs : (t.boundarySocket? s.id).isSome := by
    rw [boundarySocket?, List.find?_isSome]
    exact ⟨s, h, by simp⟩
  obtain ⟨r, hr⟩ := Option.isSome_iff_exists.mp hs
  have hid : r.id = s.id := by simpa using List.find?_some hr
  rw [hr, List.inj_on_of_nodup_map hd (List.mem_of_find?_eq_some hr) h hid]

theorem mem_of_boundaryNamed? {side : Side} {name : String}
    (h : t.boundaryNamed? side name = some s) : s ∈ t.boundary := List.mem_of_find?_eq_some h

theorem of_boundaryNamed? {side : Side} {name : String} (h : t.boundaryNamed? side name = some s) :
    s.side = side ∧ s.name = name := by
  have := List.find?_some h
  simpa using this

theorem retypeSocket_run (hd : (t.boundary.map (·.id)).Nodup) (hs : s ∈ t.boundary)
    {type : SocketType} (ha : t.adjustType type = .ok type) :
    retypeSocket s.id type t =
      (.ok type, if s.type = type then t else t.retyped s.id type) := by
  unfold retypeSocket
  rw [bind_of_ok (get_run t)]
  rw [ha, bind_of_ok (lift_run (.ok type) t), boundarySocket?_of_mem hd hs]
  dsimp only
  by_cases h : s.type = type
  · rw [if_neg (by simpa using h), if_pos h]
    rfl
  · rw [if_pos h, if_neg h]
    rfl

/-- The socket of a name is made, retyped or found as it should be. -/
theorem socketFor_run (hd : (t.boundary.map (·.id)).Nodup) (side : Side) (name : String)
    (type : SocketType) :
    socketFor side name type t = match t.adjustType type with
      | .error fault => (.error fault, t)
      | .ok wanted =>
        match t.boundaryNamed? side name with
        | some s => (.ok s.id, if s.type = wanted then t else t.retyped s.id wanted)
        | none => (.ok ⟨t.supply⟩, t.withSocket side name wanted) := by
  unfold socketFor
  rw [bind_of_ok (get_run t)]
  cases ha : t.adjustType type with
  | error fault => rfl
  | ok wanted =>
    rw [bind_of_ok (lift_run (.ok wanted) t)]
    have hw := adjustType_idem ha
    cases hb : t.boundaryNamed? side name with
    | some s =>
      dsimp only
      by_cases h : s.type = wanted
      · rw [if_neg (by simpa using h), if_pos h]
        rfl
      · have hr := retypeSocket_run hd (mem_of_boundaryNamed? hb) hw
        have hdone : (discard (retypeSocket s.id wanted) : Edit BoundaryFault Unit) t =
            (.ok (), t.retyped s.id wanted) := by
          rw [if_neg h] at hr
          exact discard_of_ok hr
        rw [if_pos h, if_neg h, bind_of_ok hdone]
        rfl
    | none =>
      dsimp only
      unfold addSocket
      rw [bind_of_ok (get_run t), hb, hw]
      rfl

theorem retypeSocket_cases (x : SocketId) (type : SocketType) :
    (retypeSocket x type t).2 = t ∨ ∃ wanted, t.adjustType type = .ok wanted ∧
      (retypeSocket x type t).2 = t.retyped x wanted := by
  unfold retypeSocket
  rw [bind_of_ok (get_run t)]
  cases t.adjustType type with
  | error fault => exact .inl rfl
  | ok wanted =>
    rw [bind_of_ok (lift_run (.ok wanted) t)]
    cases t.boundarySocket? x with
    | none => exact .inl rfl
    | some s =>
      dsimp only
      split
      · exact .inr ⟨wanted, rfl, rfl⟩
      · exact .inl rfl

theorem addSocket_cases (name : String) (side : Side) (type : SocketType) :
    (addSocket name side type t).2 = t ∨ t.boundaryNamed? side name = none ∧
      ∃ wanted, t.adjustType type = .ok wanted ∧
        (addSocket name side type t).2 = t.withSocket side name wanted := by
  unfold addSocket
  rw [bind_of_ok (get_run t)]
  cases hb : t.boundaryNamed? side name with
  | some s => exact .inl rfl
  | none =>
    cases ha : t.adjustType type with
    | error fault => exact .inl rfl
    | ok wanted => exact .inr ⟨rfl, wanted, rfl, rfl⟩

/-- Asking for a socket retypes the one of the name, makes one or does nothing. -/
theorem socketFor_cases (side : Side) (name : String) (type : SocketType) :
    (socketFor side name type t).2 = t ∨
    (∃ s wanted, t.boundaryNamed? side name = some s ∧
      (socketFor side name type t).2 = t.retyped s.id wanted) ∨
    t.boundaryNamed? side name = none ∧
      ∃ wanted, (socketFor side name type t).2 = t.withSocket side name wanted := by
  unfold socketFor
  rw [bind_of_ok (get_run t)]
  cases t.adjustType type with
  | error fault => exact .inl rfl
  | ok wanted =>
    rw [bind_of_ok (lift_run (.ok wanted) t)]
    cases hb : t.boundaryNamed? side name with
    | none =>
      dsimp only
      rcases addSocket_cases name side wanted with h | ⟨-, wanted', -, h⟩
      · exact .inl h
      · exact .inr (.inr ⟨rfl, wanted', h⟩)
    | some s =>
      dsimp only
      split
      · have hdone : ((discard (retypeSocket s.id wanted) : Edit BoundaryFault Unit) t).2 =
            (retypeSocket s.id wanted t).2 := snd_bind_pure _
        rw [snd_bind_pure, hdone]
        rcases retypeSocket_cases s.id wanted with h | ⟨wanted', -, h⟩
        · exact .inl h
        · exact .inr (.inl ⟨s, wanted', rfl, h⟩)
      · exact .inl rfl

theorem editor_socketFor (side : Side) (name : String) (type : SocketType) (t : Tree) :
    (socketFor side name type t).2.editor = t.editor := by
  rcases socketFor_cases (t := t) side name type with heq | ⟨s, wanted, -, heq⟩ |
    ⟨-, wanted, heq⟩ <;> rw [heq] <;> rfl

end Runs

section Effects

variable {x : SocketId} {side : Side} {name : String} {type : SocketType}

theorem reboundary_withSocket (hs : t.Sane) (hg : t.Grouped) :
    Reboundary (· = ⟨t.supply⟩) t (t.withSocket side name type) := by
  exact .of_redraws hs hg (.of_append hs hg rfl rfl rfl rfl rfl) rfl rfl (fun l hl _ => hl)
    fun s h _ => List.mem_append_left _ h

theorem boundaryNamed?_withSocket (h : t.boundaryNamed? side name = none) :
    (t.withSocket side name type).boundaryNamed? side name =
      some ⟨⟨t.supply⟩, name, side, type, none, false⟩ := by
  show List.find? _ (t.boundary ++ [_]) = _
  unfold boundaryNamed? at h
  rw [List.find?_append, h]
  simp

theorem boundaryNamed?_map (hf : ∀ s, (f s).side = s.side ∧ (f s).name = s.name)
    (hb : t₁.boundary = t.boundary.map fun s => if s.id == x then f s else s) :
    t₁.boundaryNamed? side name =
      (t.boundaryNamed? side name).map fun s => if s.id == x then f s else s := by
  unfold boundaryNamed?
  rw [hb, find?_map_of_congr]
  intro s
  by_cases h : s.id = x <;> simp [h, hf]

theorem mem_map_of_other {l : List Socket} (h : s ∈ l) (hx : s.id ≠ x) :
    s ∈ l.map fun s => if s.id == x then f s else s :=
  List.mem_map.mpr ⟨s, h, by simp [hx]⟩

theorem retyped_eq (x : SocketId) (type : SocketType) : ∃ links : List Link,
    t.retyped x type = syncGroups
      { t with
        boundary := t.boundary.map fun s => if s.id == x then retype type s else s
        links := links } ∧
    links.Sublist t.links ∧
    ∀ l ∈ t.links, (∀ y, y = x → l.touchesSocket y = false) → l ∈ links := by
  refine ⟨t.links.filter fun l => !l.touchesSocket x ||
    (t.modifySocket x (retype type)).stillFits l, rfl, List.filter_sublist, ?_⟩
  intro l hl hx
  rw [List.mem_filter]
  exact ⟨hl, by simp [hx x rfl]⟩

theorem reboundary_retyped (hs : t.Sane) (hg : t.Grouped) :
    Reboundary (· = x) t (t.retyped x type) := by
  obtain ⟨links, heq, hsub, hkept⟩ := t.retyped_eq x type
  rw [heq]
  refine .of_redraws hs hg (.of_map hs hg ?_ rfl rfl hsub rfl) rfl rfl hkept
    fun s h hne => mem_map_of_other h hne
  intro s
  split <;> exact ⟨rfl, rfl⟩

theorem boundaryNamed?_retyped (h : t.boundaryNamed? side name = some s) :
    (t.retyped s.id type).boundaryNamed? side name = some (retype type s) := by
  obtain ⟨links, heq, -, -⟩ := t.retyped_eq s.id type
  rw [heq]
  rw [boundaryNamed?_map (f := retype type) (fun s => ⟨rfl, rfl⟩) rfl, h]
  simp

theorem socketsOn_map (hf : ∀ s, (f s).side = s.side)
    (hx : ∀ s ∈ t.boundary, s.id = x → s.side ≠ side)
    (hb : t₁.boundary = t.boundary.map fun s => if s.id == x then f s else s) :
    t₁.socketsOn side = t.socketsOn side := by
  unfold socketsOn
  rw [hb, List.filter_map]
  have hp : ((fun s : Socket => s.side == side) ∘ fun s => if s.id == x then f s else s) =
      fun s => s.side == side := by
    funext s
    simp only [Function.comp_apply]
    split <;> simp [hf]
  rw [hp]
  refine (List.map_congr_left fun s hs => ?_).trans (List.map_id _)
  obtain ⟨hm, hside⟩ := List.mem_filter.mp hs
  have : s.id ≠ x := fun h => hx s hm h (by simpa using hside)
  simp [this]

theorem side_ne_opposite (side : Side) : side ≠ side.opposite := by
  cases side <;> decide

/-- What is left by making sure of the socket of a name. -/
theorem socketFor_spec (hs : t.Sane) (hg : t.Grouped)
    (h : socketFor side name type t = (.ok x, t')) :
    Reboundary (· = x) t t' ∧
      (∃ s, t'.boundaryNamed? side name = some s ∧ s.id = x ∧ t.adjustType type = .ok s.type) ∧
      t'.socketsOn side.opposite = t.socketsOn side.opposite := by
  rw [socketFor_run hg.distinct] at h
  cases ha : t.adjustType type with
  | error fault =>
    rw [ha] at h
    cases h
  | ok wanted =>
    rw [ha] at h
    dsimp only at h
    cases hb : t.boundaryNamed? side name with
    | none =>
      rw [hb] at h
      cases h
      refine ⟨reboundary_withSocket hs hg, ⟨_, boundaryNamed?_withSocket hb, rfl, rfl⟩, ?_⟩
      show List.filter _ (t.boundary ++ [_]) = _
      rw [List.filter_append]
      simp [socketsOn, side_ne_opposite]
    | some s =>
      rw [hb] at h
      by_cases hw : s.type = wanted
      · simp only [hw, if_true] at h
        cases h
        exact ⟨.refl hs hg, ⟨s, hb, rfl, by rw [hw]⟩, rfl⟩
      · simp only [hw, if_false] at h
        cases h
        refine ⟨reboundary_retyped hs hg, ⟨_, boundaryNamed?_retyped hb, rfl, rfl⟩, ?_⟩
        obtain ⟨links, heq, -, -⟩ := t.retyped_eq s.id wanted
        rw [heq]
        refine socketsOn_map (f := retype wanted) (fun s => rfl) ?_ rfl
        intro r hr hid
        rw [List.inj_on_of_nodup_map hg.distinct hr (mem_of_boundaryNamed? hb) hid,
          (of_boundaryNamed? hb).1]
        exact side_ne_opposite side

theorem find?_congr_of_mem {α : Type} {p q : α → Bool} {l : List α}
    (h : ∀ a ∈ l, p a = q a) : l.find? p = l.find? q := by
  induction l with
  | nil => rfl
  | cons a l ih =>
    rw [List.find?_cons, List.find?_cons, h a List.mem_cons_self,
      ih fun b hb => h b (List.mem_cons_of_mem a hb)]

theorem dropSocket_of_missing (h : t.boundarySocket? x = none) : t.dropSocket x = t := by
  show ((removeSocket x) t).2 = t
  unfold removeSocket
  rw [bind_of_ok (get_run t), h]
  rfl

theorem dropSocket_of_found (h : t.boundarySocket? x = some s) :
    t.dropSocket x = syncGroups
      { t with
        boundary := t.boundary.filter (·.id != x)
        links := t.links.filter (!·.touchesSocket x) } := by
  show ((removeSocket x) t).2 = _
  unfold removeSocket
  rw [bind_of_ok (get_run t), h]
  rfl

theorem boundary_dropSocket : (t.dropSocket x).boundary = t.boundary.filter (·.id != x) := by
  cases hb : t.boundarySocket? x with
  | none =>
    rw [dropSocket_of_missing hb]
    refine (List.filter_eq_self.mpr fun s hs => ?_).symm
    simpa using List.find?_eq_none.mp hb s hs
  | some s =>
    rw [dropSocket_of_found hb]
    rfl

theorem boundary_foldl_dropSocket (xs : List SocketId) :
    (xs.foldl dropSocket t).boundary = t.boundary.filter (!xs.contains ·.id) := by
  induction xs generalizing t with
  | nil => simp
  | cons x xs ih =>
    rw [List.foldl_cons, ih, boundary_dropSocket, List.filter_filter]
    congr 1
    funext s
    by_cases h : s.id = x <;> simp [h]

theorem reboundary_dropSocket (hs : t.Sane) (hg : t.Grouped) :
    Reboundary (· = x) t (t.dropSocket x) := by
  cases hb : t.boundarySocket? x with
  | none =>
    rw [dropSocket_of_missing hb]
    exact .refl hs hg
  | some s =>
    rw [dropSocket_of_found hb]
    refine .of_redraws hs hg (.of_remove hs hg rfl rfl rfl rfl) rfl rfl ?_ ?_
    · intro l hl hx
      exact List.mem_filter.mpr ⟨hl, by simp [hx x rfl]⟩
    · intro r hr hne
      exact List.mem_filter.mpr ⟨hr, by simpa using hne⟩

theorem reboundary_foldl_dropSocket (hs : t.Sane) (hg : t.Grouped) (xs : List SocketId) :
    Reboundary (· ∈ xs) t (xs.foldl dropSocket t) := by
  induction xs generalizing t with
  | nil => exact .refl hs hg
  | cons x xs ih =>
    have hr := reboundary_dropSocket (x := x) hs hg
    exact (hr.mono fun y hy => by simp [hy]).trans
      ((ih hr.sane hr.grouped).mono fun y hy => by simp [hy])

theorem mem_inputsExcept (hd : (t.boundary.map (·.id)).Nodup) {keep : List String}
    (hs : s ∈ t.boundary) :
    s.id ∈ t.inputsExcept keep ↔ s.side = .input ∧ s.name ∉ keep := by
  unfold inputsExcept socketsOn
  simp only [List.mem_map, List.mem_filter, beq_iff_eq, Bool.not_eq_eq_eq_not, Bool.not_true,
    List.contains_eq_mem, decide_eq_false_iff_not]
  constructor
  · rintro ⟨r, ⟨⟨hr, hside⟩, hname⟩, hid⟩
    rw [← List.inj_on_of_nodup_map hd hr hs hid]
    exact ⟨hside, hname⟩
  · rintro ⟨hside, hname⟩
    exact ⟨s, ⟨⟨hs, hside⟩, hname⟩, rfl⟩

/-- Outputs are left and inputs of the names. -/
theorem boundary_keepInputs (hd : (t.boundary.map (·.id)).Nodup) (keep : List String) :
    (t.keepInputs keep).boundary =
      t.boundary.filter fun s => s.side = .output ∨ s.name ∈ keep := by
  rw [keepInputs, boundary_foldl_dropSocket]
  apply List.filter_congr
  intro s hs
  cases hside : s.side <;> simp [mem_inputsExcept hd hs, hside]

/-- After the inputs are cut down to some names, those are all that is left,
and they are as they were. -/
theorem keepInputs_spec (hs : t.Sane) (hg : t.Grouped) (keep : List String) :
    Reboundary (· ∈ t.inputsExcept keep) t (t.keepInputs keep) ∧
      (t.keepInputs keep).inputsExcept keep = [] ∧
      (t.keepInputs keep).socketsOn .output = t.socketsOn .output ∧
      ∀ name ∈ keep, (t.keepInputs keep).boundaryNamed? .input name =
        t.boundaryNamed? .input name := by
  have hb := boundary_keepInputs hg.distinct keep
  refine ⟨reboundary_foldl_dropSocket hs hg _, ?_, ?_, ?_⟩
  · unfold inputsExcept socketsOn
    rw [hb, List.map_eq_nil_iff, List.filter_eq_nil_iff]
    intro s hs' hname
    obtain ⟨hs', hside⟩ := List.mem_filter.mp hs'
    obtain ⟨-, hkept⟩ := List.mem_filter.mp hs'
    have hin : s.name ∈ keep := by simpa [beq_iff_eq.mp hside] using hkept
    simp [hin] at hname
  · unfold socketsOn
    rw [hb, List.filter_filter]
    apply List.filter_congr
    intro s hs'
    cases hside : s.side <;> simp
  · intro name hname
    unfold boundaryNamed?
    rw [hb, List.find?_filter]
    apply find?_congr_of_mem
    intro s hs'
    by_cases hsn : s.name = name
    · cases s.side <;> simp [hsn, hname]
    · simp [hsn]

end Effects

end FormulaGraph.Tree
