import FormulaGraph.Proofs.Graph.BoundaryKeeps

/-!
Boundary sockets by their identities. Sockets are made at the end, retyped and
given defaults; by all that a socket keeps its side, its name and its place on
the side, and the other sockets stay as they are.
-/

namespace FormulaGraph.Tree

open Run

variable {t t' t'' : Tree} {x y : SocketId} {s : Socket}

theorem mem_of_boundarySocket? (h : t.boundarySocket? x = some s) : s ∈ t.boundary ∧ s.id = x :=
  ⟨List.mem_of_find?_eq_some h, by simpa using List.find?_some h⟩

theorem exists_boundaryIndex? (h : t.boundarySocket? x = some s) :
    ∃ place, t.boundaryIndex? x = some place := by
  obtain ⟨hm, hid⟩ := mem_of_boundarySocket? h
  unfold boundaryIndex?
  rw [h]
  dsimp only [Option.bind_some]
  rw [← Option.isSome_iff_exists, List.findIdx?_isSome, List.any_eq_true]
  exact ⟨s, List.mem_filter.mpr ⟨hm, by simp⟩, by simp [hid]⟩

theorem eq_of_boundaryIndex? {r : Socket} {place : Nat} (hs : t.boundarySocket? x = some s)
    (hr : t.boundarySocket? y = some r) (hside : s.side = r.side)
    (hx : t.boundaryIndex? x = some place) (hy : t.boundaryIndex? y = some place) : x = y := by
  unfold boundaryIndex? at hx hy
  rw [hs, Option.bind_some, List.findIdx?_eq_some_iff_getElem] at hx
  rw [hr, Option.bind_some, ← hside, List.findIdx?_eq_some_iff_getElem] at hy
  obtain ⟨hlt, hid, -⟩ := hx
  obtain ⟨hlt', hid', -⟩ := hy
  exact (beq_iff_eq.mp hid).symm.trans (beq_iff_eq.mp hid')

theorem boundarySocket?_of_boundary (h : t'.boundary = t.boundary) (y : SocketId) :
    t'.boundarySocket? y = t.boundarySocket? y := by
  unfold boundarySocket?
  rw [h]

theorem boundaryIndex?_of_boundary (h : t'.boundary = t.boundary) (y : SocketId) :
    t'.boundaryIndex? y = t.boundaryIndex? y := by
  unfold boundaryIndex? socketsOn
  rw [boundarySocket?_of_boundary h, h]

section Modify

variable {f : Socket → Socket}

def revised (x : SocketId) (f : Socket → Socket) (s : Socket) : Socket :=
  if s.id = x then f s else s

theorem boundary_modifySocket : (t.modifySocket x f).boundary = t.boundary.map (revised x f) :=
  List.map_congr_left fun s _ => by by_cases hs : s.id = x <;> simp [revised, hs]

theorem revised_spec {α : Type} {g : Socket → α} (hf : ∀ s, g (f s) = g s) (s : Socket) :
    g (revised x f s) = g s := by
  unfold revised
  split
  · exact hf s
  · rfl

variable (hf : ∀ s, (f s).id = s.id)
include hf

theorem boundarySocket?_modifySocket (y : SocketId) :
    (t.modifySocket x f).boundarySocket? y = (t.boundarySocket? y).map (revised x f) := by
  unfold boundarySocket?
  rw [boundary_modifySocket]
  exact find?_map_of_congr (fun s => by rw [revised_spec hf]) _

theorem boundarySocket?_modifySocket_other (hy : y ≠ x) :
    (t.modifySocket x f).boundarySocket? y = t.boundarySocket? y := by
  rw [boundarySocket?_modifySocket hf]
  cases hs : t.boundarySocket? y with
  | none => rfl
  | some s =>
    rw [Option.map_some, revised, if_neg]
    rw [(mem_of_boundarySocket? hs).2]
    exact hy

theorem boundarySocket?_modifySocket_self
    (hs : t.boundarySocket? x = some s) :
    (t.modifySocket x f).boundarySocket? x = some (f s) := by
  rw [boundarySocket?_modifySocket hf, hs, Option.map_some, revised,
    if_pos (mem_of_boundarySocket? hs).2]

theorem boundaryIndex?_modifySocket (hside : ∀ s, (f s).side = s.side)
    (y : SocketId) : (t.modifySocket x f).boundaryIndex? y = t.boundaryIndex? y := by
  have hsockets : ∀ side, (t.modifySocket x f).socketsOn side =
      (t.socketsOn side).map (revised x f) := by
    intro side
    unfold socketsOn
    rw [boundary_modifySocket, List.filter_map]
    refine congrArg _ (List.filter_congr fun s _ => ?_)
    rw [Function.comp_apply, revised_spec hside]
  unfold boundaryIndex?
  rw [boundarySocket?_modifySocket hf]
  cases t.boundarySocket? y with
  | none => rfl
  | some s =>
    simp only [Option.map_some, Option.bind_some]
    rw [revised_spec hside, hsockets, List.findIdx?_map]
    refine congrArg (List.findIdx? · _) (funext fun s => ?_)
    rw [Function.comp_apply, revised_spec hf]

end Modify

section Append

variable {side : Side} {name : String} {type : SocketType}

theorem boundarySocket?_withSocket (h : t.boundarySocket? y = some s) :
    (t.withSocket side name type).boundarySocket? y = some s := by
  show List.find? _ (t.boundary ++ [_]) = _
  rw [List.find?_append]
  unfold boundarySocket? at h
  rw [h]
  rfl

theorem boundaryIndex?_withSocket {place : Nat} (h : t.boundaryIndex? y = some place) :
    (t.withSocket side name type).boundaryIndex? y = some place := by
  obtain ⟨s, hs, hi⟩ := Option.bind_eq_some_iff.mp h
  unfold boundaryIndex?
  rw [boundarySocket?_withSocket hs, Option.bind_some]
  show List.findIdx? _ ((t.boundary ++ [_]).filter _) = _
  rw [List.filter_append, List.findIdx?_append]
  unfold socketsOn at hi
  rw [hi]
  rfl

end Append

structure Retains (t t' : Tree) : Prop where
  socket : ∀ y s, t.boundarySocket? y = some s →
    ∃ s', t'.boundarySocket? y = some s' ∧ s'.side = s.side ∧ s'.name = s.name
  place : ∀ y i, t.boundaryIndex? y = some i → t'.boundaryIndex? y = some i

namespace Retains

theorem of_boundary (h : t'.boundary = t.boundary) : Retains t t' where
  socket := fun y s hs => ⟨s, (boundarySocket?_of_boundary h y).trans hs, rfl, rfl⟩
  place := fun y _ hi => (boundaryIndex?_of_boundary h y).trans hi

theorem refl : Retains t t := .of_boundary rfl

theorem trans (h : Retains t t') (h' : Retains t' t'') : Retains t t'' where
  socket := by
    intro y s hs
    obtain ⟨s', hs', hside, hname⟩ := h.socket y s hs
    obtain ⟨s'', hs'', hside', hname'⟩ := h'.socket y s' hs'
    exact ⟨s'', hs'', hside'.trans hside, hname'.trans hname⟩
  place := fun y i hi => h'.place y i (h.place y i hi)

theorem modifySocket {f : Socket → Socket}
    (hf : ∀ s, (f s).id = s.id ∧ (f s).side = s.side ∧ (f s).name = s.name) :
    Retains t (t.modifySocket x f) where
  socket := by
    intro y s hs
    refine ⟨revised x f s, ?_, revised_spec (fun s => (hf s).2.1) s,
      revised_spec (fun s => (hf s).2.2) s⟩
    rw [boundarySocket?_modifySocket fun s => (hf s).1, hs]
    rfl
  place := fun y _ hi =>
    (boundaryIndex?_modifySocket (fun s => (hf s).1) (fun s => (hf s).2.1) y).trans hi

theorem retyped (type : SocketType) : Retains t (t.retyped x type) :=
  (modifySocket (f := retype type) fun _ => ⟨rfl, rfl, rfl⟩).trans (.of_boundary rfl)

theorem withSocket (side : Side) (name : String) (type : SocketType) :
    Retains t (t.withSocket side name type) where
  socket := fun _ s hs => ⟨s, boundarySocket?_withSocket hs, rfl, rfl⟩
  place := fun _ _ hi => boundaryIndex?_withSocket hi

theorem socketFor (side : Side) (name : String) (type : SocketType) :
    Retains t (socketFor side name type t).2 := by
  rcases socketFor_cases (t := t) side name type with heq | ⟨s, wanted, -, heq⟩ | ⟨-, wanted, heq⟩
  · rw [heq]
    exact .refl
  · rw [heq]
    exact .retyped wanted
  · rw [heq]
    exact .withSocket side name wanted

end Retains

theorem setSocketDefault_spec (hs : t.boundarySocket? x = some s) (value : Value) :
    ∃ b t', setSocketDefault x value t = (.ok b, t') ∧ t'.links = t.links ∧ Retains t t' ∧
      t'.boundarySocket? x = some (redefault (value.convert s.type) s) ∧
      ∀ y, y ≠ x → t'.boundarySocket? y = t.boundarySocket? y := by
  rw [setSocketDefault_run hs]
  split
  · next hd =>
    refine ⟨_, _, rfl, rfl, .refl, ?_, fun _ _ => rfl⟩
    rw [hs, redefault, ← hd]
  · exact ⟨_, _, rfl, rfl, .modifySocket fun _ => ⟨rfl, rfl, rfl⟩,
      boundarySocket?_modifySocket_self (fun _ => rfl) hs,
      fun y hy => boundarySocket?_modifySocket_other (fun _ => rfl) hy⟩

section SocketFor

variable {side : Side} {name : String} {type : SocketType}

theorem socketFor_outcome (hg : t.Grouped) (side : Side) (name : String) (type : SocketType) :
    (socketFor side name type t).2 = t ∨
    (∃ s wanted, t.boundaryNamed? side name = some s ∧ t.editor.adjust? type = some wanted ∧
      s.type ≠ wanted ∧ (socketFor side name type t).2 = t.retyped s.id wanted) ∨
    ∃ wanted, (socketFor side name type t).2 = t.withSocket side name wanted := by
  rw [socketFor_run hg.distinct]
  unfold adjustType
  cases ha : t.editor.adjust? type with
  | none => exact .inl rfl
  | some wanted =>
    dsimp only
    cases hb : t.boundaryNamed? side name with
    | none => exact .inr (.inr ⟨wanted, rfl⟩)
    | some s =>
      dsimp only
      split
      · exact .inl rfl
      · next hne => exact .inr (.inl ⟨s, wanted, rfl, rfl, hne, rfl⟩)

def Concerns (t : Tree) (side : Side) (name : String) (type : SocketType) (x : SocketId) : Prop :=
  t.supply ≤ x.index ∨ ∃ s, t.boundarySocket? x = some s ∧ s.side = side ∧ s.name = name ∧
    t.editor.adjust? type ≠ some s.type

theorem concerns_of_named (hg : t.Grouped) {wanted : SocketType}
    (hs : t.boundaryNamed? side name = some s) (ha : t.editor.adjust? type = some wanted)
    (hne : s.type ≠ wanted) : t.Concerns side name type s.id := by
  refine .inr ⟨s, boundarySocket?_of_mem hg.distinct (mem_of_boundaryNamed? hs),
    (of_boundaryNamed? hs).1, (of_boundaryNamed? hs).2, ?_⟩
  rw [ha]
  exact fun h => hne (Option.some.inj h).symm

theorem reboundary_socketFor (hs : t.Sane) (hg : t.Grouped) (side : Side) (name : String)
    (type : SocketType) :
    Reboundary (t.Concerns side name type) t (socketFor side name type t).2 := by
  rcases socketFor_outcome hg side name type with heq | ⟨s, wanted, hb, ha, hne, heq⟩ |
    ⟨wanted, heq⟩
  · rw [heq]
    exact .refl hs hg
  · rw [heq]
    refine (reboundary_retyped hs hg).mono fun x hx => ?_
    rw [hx]
    exact concerns_of_named hg hb ha hne
  · rw [heq]
    refine (reboundary_withSocket hs hg).mono fun x hx => ?_
    rw [hx]
    exact .inl (Nat.le_refl _)

theorem boundarySocket?_socketFor (hg : t.Grouped) (hy : ¬t.Concerns side name type y) :
    (socketFor side name type t).2.boundarySocket? y = t.boundarySocket? y := by
  rcases socketFor_outcome hg side name type with heq | ⟨s, wanted, hb, ha, hne, heq⟩ |
    ⟨wanted, heq⟩
  · rw [heq]
  · rw [heq]
    refine boundarySocket?_modifySocket_other (f := retype wanted) (fun _ => rfl) ?_
    rintro rfl
    exact hy (concerns_of_named hg hb ha hne)
  · rw [heq]
    show List.find? _ (t.boundary ++ [_]) = t.boundary.find? _
    have hother : (⟨t.supply⟩ : SocketId) ≠ y := by
      rintro rfl
      exact hy (.inl (Nat.le_refl _))
    rw [List.find?_append, List.find?_singleton, if_neg (by simpa using hother), Option.or_none]

end SocketFor

theorem Reboundary.feedOf? {X : SocketId → Prop} (hr : Reboundary X t t') (hy : ¬X y)
    (hs : ∀ r, t.sourceOf? y = some r → ¬X r.socket) : t'.feedOf? y = t.feedOf? y := by
  cases hf : t.feedOf? y with
  | none =>
    refine List.find?_eq_none.mpr fun l hl => ?_
    exact List.find?_eq_none.mp hf l (hr.links.subset hl)
  | some l =>
    have htarget : l.target.socket = y := target_of_feedOf? hf
    have hmem : l ∈ t'.links := by
      refine hr.kept l (mem_of_feedOf? hf) fun x hx => ?_
      have hsource : l.source.socket ≠ x := by
        rintro rfl
        exact hs l.source (by rw [sourceOf?, hf]; rfl) hx
      have hne : l.target.socket ≠ x := by
        rw [htarget]
        rintro rfl
        exact hy hx
      simp [Link.touchesSocket, hsource, hne]
    rw [← htarget]
    exact feedOf?_of_mem hr.sane.single hmem

theorem Reboundary.hasInput {X : SocketId → Prop} {r : SocketRef} (hr : Reboundary X t t')
    (hg : t.Grouped) (hretains : t.Retains t') (h : t.HasInput r) : t'.HasInput r := by
  obtain ⟨n, hn, hx⟩ := h
  refine ⟨t'.mirrored n, by rw [hr.node?, hn]; rfl, ?_⟩
  unfold mirrored
  split
  · exact hx
  · split
    · next hid =>
      obtain ⟨o, ho, hinputs, -⟩ := hg.output
      rw [← hid, id_of_node? hn, hn] at ho
      cases ho
      rw [Node.inputIds, hinputs, mem_ids_shownInside] at hx
      obtain ⟨s, hs, hside, hs'⟩ := hx
      obtain ⟨s', hfound, hside', -⟩ :=
        hretains.socket s.id s (boundarySocket?_of_mem hg.distinct hs)
      obtain ⟨hmem, hid'⟩ := mem_of_boundarySocket? hfound
      exact mem_ids_shownInside.mpr ⟨s', hmem, hside'.trans hside, hid'.trans hs'⟩
    · exact hx

end FormulaGraph.Tree
