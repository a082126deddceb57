import FormulaGraph.Proofs.Graph.Hosted

/-!
Edits of the boundary keep what a tree keeps under every edit. Retyping a socket
drops the links of it that no longer fit, and removing one drops all of them.
-/

namespace FormulaGraph

/-- A value is converted to a value of the type. -/
theorem Value.type_of_convert {v w : Value} {type : SocketType} (h : v.convert type = some w) :
    w.type = type := by
  cases type <;> cases v <;> cases h <;> rfl

namespace Tree

open Run

variable {t t₁ : Tree} {x : SocketId} {side : Side} {name : String} {type : SocketType}

/-- A boundary socket that a link touches is shown as it was. -/
theorem Joins.redraw {t₁ : Tree} {l : Link} (h : t.Joins l) (hg : t.Grouped)
    (hn : t₁.nodes = t.nodes) (hb : ∀ s ∈ t.boundary, l.touchesSocket s.id = true →
      ∃ s' ∈ t₁.boundary, s'.id = s.id ∧ s'.side = s.side ∧ s'.type = s.type) :
    t₁.syncGroups.Joins l := by
  have hnode : ∀ x n, t.node? x = some n → t₁.syncGroups.node? x = some (t₁.mirrored n) := by
    intro x n hx
    have : t₁.node? x = some n := by
      unfold node?
      rw [hn]
      exact hx
    rw [node?_syncGroups, this]
    rfl
  have hshown : ∀ side s, s ∈ t.shownInside side → l.touchesSocket s.id = true →
      ∃ s' ∈ t₁.shownInside side, s'.id = s.id ∧ s'.type = s.type := by
    intro side s hs ht
    obtain ⟨b, hbm, rfl⟩ := List.mem_map.mp hs
    obtain ⟨hbm, hside⟩ := List.mem_filter.mp hbm
    obtain ⟨b', hb', hid, hside', htype⟩ := hb b hbm ht
    refine ⟨_, List.mem_map_of_mem (List.mem_filter.mpr ⟨hb', ?_⟩), hid, htype⟩
    rw [hside']
    exact hside
  obtain ⟨a, b, ⟨n, s, hns, hs, hsid, hst⟩, ⟨m, r, hmr, hr, hrid, hrt⟩, hfits⟩ := h
  have hout : ∃ s' ∈ (t₁.mirrored n).outputs, s'.id = s.id ∧ s'.type = s.type := by
    unfold mirrored
    split
    · next hgi =>
      obtain ⟨i, hi, hi', -⟩ := hg.input
      rw [← hgi, id_of_node? hns, hns] at hi
      cases hi
      exact hshown .input s (hi' ▸ hs) (by simp [Link.touchesSocket, hsid])
    · split <;> exact ⟨s, hs, rfl, rfl⟩
  have hin : ∃ r' ∈ (t₁.mirrored m).inputs, r'.id = r.id ∧ r'.type = r.type := by
    unfold mirrored
    split
    · exact ⟨r, hr, rfl, rfl⟩
    · split
      · next hgo =>
        obtain ⟨o, ho, ho', -⟩ := hg.output
        rw [← hgo, id_of_node? hmr, hmr] at ho
        cases ho
        exact hshown .output r (ho' ▸ hr) (by simp [Link.touchesSocket, hrid])
      · exact ⟨r, hr, rfl, rfl⟩
  obtain ⟨s', hs', hid, htype⟩ := hout
  obtain ⟨r', hr', hid', htype'⟩ := hin
  exact ⟨a, b, ⟨_, s', hnode _ n hns, hs', hid.trans hsid, htype.trans hst⟩,
    ⟨_, r', hnode _ m hmr, hr', hid'.trans hrid, htype'.trans hrt⟩, hfits⟩

theorem socket?_of_mem {n : Node} {s : Socket} (hd : n.socketIds.Nodup)
    (hs : s ∈ n.inputs ++ n.outputs) : n.socket? s.id = some s := by
  obtain ⟨r, hr⟩ : ∃ r, n.socket? s.id = some r := by
    rw [← Option.isSome_iff_exists, Node.socket?, List.find?_isSome]
    exact ⟨s, hs, by simp⟩
  obtain ⟨hmem, hid⟩ := mem_of_socket? hr
  have hd : ((n.inputs ++ n.outputs).map (·.id)).Nodup := by
    rw [List.map_append]
    exact hd
  rw [hr, List.inj_on_of_nodup_map hd hmem hs hid]

theorem Sane.joins_of_stillFits (hs : t.Sane) {l : Link} (ho : t.HasOutput l.source)
    (hi : t.HasInput l.target) (h : t.stillFits l = true) : t.Joins l := by
  obtain ⟨n, hn, hx⟩ := ho
  obtain ⟨m, hm, hy⟩ := hi
  obtain ⟨o, homem, hoid⟩ := List.mem_map.mp hx
  obtain ⟨i, himem, hiid⟩ := List.mem_map.mp hy
  have hout : n.socket? l.source.socket = some o := by
    rw [← hoid]
    exact socket?_of_mem (hs.distinct _ n hn) (List.mem_append_right _ homem)
  have hin : m.socket? l.target.socket = some i := by
    rw [← hiid]
    exact socket?_of_mem (hs.distinct _ m hm) (List.mem_append_left _ himem)
  unfold stillFits at h
  rw [hn, hm, Option.bind_some, Option.bind_some, hout, hin] at h
  exact ⟨o.type, i.type, ⟨n, o, hn, homem, hoid, rfl⟩, ⟨m, i, hm, himem, hiid, rfl⟩,
    (Bool.and_eq_true _ _ ▸ h).2⟩

theorem mem_socketTypes_of_adjustType {wanted : SocketType} (h : t.adjustType type = .ok wanted) :
    wanted ∈ t.editor.socketTypes := by
  unfold adjustType Editor.adjust? at h
  by_cases hm : (if t.editor = .compositor ∧ type = .bool then SocketType.int else type) ∈
      t.editor.socketTypes
  · rw [if_pos hm] at h
    cases h
    exact hm
  · rw [if_neg hm] at h
    cases h

namespace Hosted

variable (h : t.Hosted)
include h

/-- An edit of the boundary, once the group nodes show it. -/
theorem redraw (hr : Redraws t t₁) (he : t₁.editor = t.editor)
    (ha : t₁.active = t.active) (hn : (t₁.boundary.map fun s => (s.side, s.name)).Nodup)
    (hs : ∀ s ∈ t₁.boundary, s.Admitted t.editor)
    (hj : ∀ l ∈ t₁.links, t₁.syncGroups.Joins l) : t₁.syncGroups.Hosted := by
  have hids : t₁.syncGroups.nodes.map (·.id) = t.nodes.map (·.id) := by
    rw [map_id_syncGroups, hr.nodes]
  have hsane := hr.sane h.sane h.grouped
  refine ⟨hsane, hr.grouped h.grouped, hj, h.acyclic.mono hr.links.subset, hn, ?_, ?_, ?_⟩
  · intro s hs'
    show s.Admitted t₁.editor
    rw [he]
    exact hs s hs'
  · intro x hx
    rw [contains_congr hids]
    exact h.active x (ha ▸ hx)
  · intro n hn q hq
    rw [contains_congr hids]
    have hnode := node?_of_mem hsane.nodes hn
    rw [node?_syncGroups] at hnode
    obtain ⟨m, hm, rfl⟩ := Option.map_eq_some_iff.mp hnode
    have hmem : m ∈ t.nodes := hr.nodes ▸ mem_of_node? hm
    refine h.parents m hmem q ?_
    unfold mirrored at hq
    split at hq
    · exact hq
    · split at hq <;> exact hq

theorem withSocket (hn : t.boundaryNamed? side name = none)
    (ht : type ∈ t.editor.socketTypes) : (t.withSocket side name type).Hosted := by
  refine h.redraw (.of_append h.sane h.grouped rfl rfl rfl rfl rfl) rfl rfl ?_ ?_ ?_
  · rw [List.map_append, List.nodup_append]
    refine ⟨h.names, List.nodup_singleton _, ?_⟩
    intro e he e' he' heq
    obtain ⟨s, hs, rfl⟩ := List.mem_map.mp he
    rw [List.map_singleton, List.mem_singleton] at he'
    rw [he'] at heq
    have := List.find?_eq_none.mp hn s hs
    simp only [Prod.mk.injEq] at heq
    simp [heq] at this
  · intro s hs
    rcases List.mem_append.mp hs with hs | hs
    · exact h.sockets s hs
    · rw [List.mem_singleton.mp hs]
      exact ⟨ht, fun v hv => by cases hv⟩
  · intro l hl
    refine (h.joins l hl).redraw h.grouped rfl fun s hs _ => ?_
    exact ⟨s, List.mem_append_left _ hs, rfl, rfl, rfl⟩

theorem names_map {f : Socket → Socket}
    (hf : ∀ s, (f s).side = s.side ∧ (f s).name = s.name) :
    ((t.boundary.map fun s => if s.id == x then f s else s).map
      fun s => (s.side, s.name)).Nodup := by
  have heq : (t.boundary.map fun s => if s.id == x then f s else s).map
      (fun s => (s.side, s.name)) = t.boundary.map fun s => (s.side, s.name) := by
    rw [List.map_map]
    refine List.map_congr_left fun s _ => ?_
    simp only [Function.comp_apply]
    split
    · rw [(hf s).1, (hf s).2]
    · rfl
  rw [heq]
  exact h.names

theorem retyped (ht : type ∈ t.editor.socketTypes) : (t.retyped x type).Hosted := by
  have hr : Redraws t
      { t with
        boundary := t.boundary.map fun s => if s.id == x then retype type s else s
        links := t.links.filter fun l => !l.touchesSocket x ||
          (t.modifySocket x (retype type)).stillFits l } :=
    .of_map h.sane h.grouped (fun s => by split <;> exact ⟨rfl, rfl⟩) rfl rfl List.filter_sublist
      rfl
  refine h.redraw hr rfl rfl (h.names_map fun s => ⟨rfl, rfl⟩) ?_ ?_
  · intro s hs
    obtain ⟨r, hr', rfl⟩ := List.mem_map.mp hs
    split
    · refine ⟨ht, fun v hv => ?_⟩
      obtain ⟨w, -, hw⟩ := Option.bind_eq_some_iff.mp hv
      exact Value.type_of_convert hw
    · exact h.sockets r hr'
  · intro l hl
    obtain ⟨hmem, hfits⟩ := List.mem_filter.mp hl
    cases htouch : l.touchesSocket x with
    | true =>
      rw [htouch, Bool.not_true, Bool.false_or] at hfits
      obtain ⟨ho, hi⟩ := h.sane.ends l hmem
      exact (hr.sane h.sane h.grouped).joins_of_stillFits (hr.hasOutput h.grouped hl ho)
        (hr.hasInput h.grouped hl hi) hfits
    | false =>
      refine (h.joins l hmem).redraw h.grouped rfl fun s hs hs' => ?_
      refine ⟨s, mem_map_of_other hs ?_, rfl, rfl, rfl⟩
      rintro rfl
      rw [htouch] at hs'
      cases hs'

theorem dropSocket (x : SocketId) : (t.dropSocket x).Hosted := by
  cases hb : t.boundarySocket? x with
  | none => rwa [dropSocket_of_missing hb]
  | some s =>
    rw [dropSocket_of_found hb]
    refine h.redraw (.of_remove h.sane h.grouped rfl rfl rfl rfl) rfl rfl
      (h.names.sublist (List.filter_sublist.map _)) ?_ ?_
    · exact fun s hs => h.sockets s (List.mem_filter.mp hs).1
    · intro l hl
      obtain ⟨hmem, htouch⟩ := List.mem_filter.mp hl
      refine (h.joins l hmem).redraw h.grouped rfl fun s hs hs' => ?_
      refine ⟨s, List.mem_filter.mpr ⟨hs, ?_⟩, rfl, rfl, rfl⟩
      rw [bne_iff_ne]
      rintro rfl
      rw [hs'] at htouch
      cases htouch

theorem keepInputs (keep : List String) : (t.keepInputs keep).Hosted := by
  unfold Tree.keepInputs
  generalize t.inputsExcept keep = xs
  induction xs generalizing t with
  | nil => exact h
  | cons x xs ih => exact ih (h.dropSocket x)

theorem redefault {value : Option Value}
    (hv : ∀ s ∈ t.boundary, s.id = x → ∀ v, value = some v → v.type = s.type) :
    (t.modifySocket x (redefault value)).Hosted := by
  refine h.redraw
    (.of_map h.sane h.grouped (fun s => by split <;> exact ⟨rfl, rfl⟩) rfl rfl
      (List.Sublist.refl _) rfl)
    rfl rfl (h.names_map fun s => ⟨rfl, rfl⟩) ?_ ?_
  · intro s hs
    obtain ⟨r, hr, rfl⟩ := List.mem_map.mp hs
    split
    · next hid => exact ⟨(h.sockets r hr).type, fun v hd => hv r hr (by simpa using hid) v hd⟩
    · exact h.sockets r hr
  · intro l hl
    refine (h.joins l hl).redraw h.grouped rfl fun s hs _ => ?_
    refine ⟨_, List.mem_map_of_mem hs, ?_⟩
    split <;> exact ⟨rfl, rfl, rfl⟩

/-! The edits themselves, refused or not. -/

theorem addSocket : (addSocket name side type t).2.Hosted := by
  rcases addSocket_cases (t := t) name side type with heq | ⟨hb, wanted, ha, heq⟩
  · rwa [heq]
  · rw [heq]
    exact h.withSocket hb (mem_socketTypes_of_adjustType ha)

theorem removeSocket : (removeSocket x t).2.Hosted := h.dropSocket x

theorem retypeSocket : (retypeSocket x type t).2.Hosted := by
  rcases retypeSocket_cases (t := t) x type with heq | ⟨wanted, ha, heq⟩
  · rwa [heq]
  · rw [heq]
    exact h.retyped (mem_socketTypes_of_adjustType ha)

theorem setSocketDefault (value : Value) : (setSocketDefault x value t).2.Hosted := by
  cases hb : t.boundarySocket? x with
  | none =>
    rw [setSocketDefault_of_missing hb]
    exact h
  | some s =>
    rw [setSocketDefault_run hb]
    split
    · exact h
    · refine h.redefault fun r hr hid v hv => ?_
      have hs := boundarySocket?_of_mem h.grouped.distinct hr
      rw [hid, hb] at hs
      cases hs
      exact Value.type_of_convert hv

theorem socketFor : (socketFor side name type t).2.Hosted := by
  rw [socketFor_run h.grouped.distinct]
  cases ha : t.adjustType type with
  | error fault => exact h
  | ok wanted =>
    dsimp only
    have ht := mem_socketTypes_of_adjustType ha
    cases hb : t.boundaryNamed? side name with
    | none => exact h.withSocket hb ht
    | some s =>
      dsimp only
      split
      · exact h
      · exact h.retyped ht

end Hosted

theorem hosted_empty (editor : Editor) : (empty editor).Hosted where
  sane := sane_empty editor
  grouped := grouped_empty editor
  joins := fun _ hl => by cases hl
  acyclic := by
    intro x hx
    obtain ⟨y, -, hstep⟩ := Relation.TransGen.tail'_iff.mp hx
    obtain ⟨l, hl, -⟩ := hstep
    cases hl
  names := List.nodup_nil
  sockets := fun _ hs => by cases hs
  active := fun _ hx => by cases hx
  parents := by
    intro n hn q hq
    rcases List.mem_cons.mp hn with rfl | hn
    · cases hq
    · rw [List.mem_singleton.mp hn] at hq
      cases hq

end Tree

end FormulaGraph
