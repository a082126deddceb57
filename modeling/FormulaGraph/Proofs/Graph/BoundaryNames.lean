import FormulaGraph.Proofs.Graph.BoundaryEdits

/-!
The boundary as a list. Asking for a socket by its name brings the one there is
to the wanted type, in its place, or puts a new one at the end. So the inputs
that are declared one after the other keep their order, and the new ones come in
the order of their names.
-/

namespace FormulaGraph

open Run

namespace Socket

def fit (type : SocketType) (s : Socket) : Socket :=
  if s.type = type then s else Tree.retype type s

variable {type : SocketType} {s : Socket}

@[simp] theorem id_fit : (s.fit type).id = s.id := by
  unfold fit
  split <;> rfl

@[simp] theorem name_fit : (s.fit type).name = s.name := by
  unfold fit
  split <;> rfl

@[simp] theorem side_fit : (s.fit type).side = s.side := by
  unfold fit
  split <;> rfl

@[simp] theorem type_fit : (s.fit type).type = type := by
  unfold fit
  split
  · next h => exact h
  · rfl

theorem fit_of_type (h : s.type = type) : s.fit type = s := if_pos h

def fitted (wanted : String → Option SocketType) (s : Socket) : Socket :=
  (wanted s.name).elim s s.fit

theorem fitted_keeps {wanted : String → Option SocketType} (s : Socket) :
    (s.fitted wanted).id = s.id ∧ (s.fitted wanted).side = s.side ∧
      (s.fitted wanted).name = s.name := by
  unfold fitted
  cases wanted s.name <;> simp

theorem fitted_of_some {wanted : String → Option SocketType} (h : wanted s.name = some type) :
    s.fitted wanted = s.fit type := by
  rw [fitted, h]
  rfl

end Socket

namespace Tree

variable {s : Socket} {t t' t'' : Tree} {side : Side} {name : String} {type : SocketType}
  {x : SocketId}

/-- The sockets of the boundary have identities of their own from the supply,
and no two of a side share a name. -/
structure Identified (t : Tree) : Prop where
  ids : (t.boundary.map (·.id)).Nodup
  names : (t.boundary.map fun s => (s.side, s.name)).Nodup
  below : ∀ s ∈ t.boundary, s.id.index < t.supply

namespace Identified

variable {s r : Socket} (h : t.Identified)
include h

theorem eq_of_id (hs : s ∈ t.boundary) (hr : r ∈ t.boundary) (hid : s.id = r.id) : s = r :=
  List.inj_on_of_nodup_map h.ids hs hr hid

theorem eq_of_name (hs : s ∈ t.boundary) (hr : r ∈ t.boundary)
    (hside : s.side = r.side) (hname : s.name = r.name) : s = r :=
  List.inj_on_of_nodup_map h.names hs hr (by rw [hside, hname])

theorem map {f : Socket → Socket}
    (hf : ∀ s, (f s).id = s.id ∧ (f s).side = s.side ∧ (f s).name = s.name)
    (hb : t'.boundary = t.boundary.map f) (hs : t.supply ≤ t'.supply) : t'.Identified where
  ids := by
    have heq : t'.boundary.map (·.id) = t.boundary.map (·.id) := by
      rw [hb, List.map_map]
      exact List.map_congr_left fun s _ => (hf s).1
    rw [heq]
    exact h.ids
  names := by
    have heq : t'.boundary.map (fun s => (s.side, s.name)) =
        t.boundary.map fun s => (s.side, s.name) := by
      rw [hb, List.map_map]
      exact List.map_congr_left fun s _ => Prod.ext (hf s).2.1 (hf s).2.2
    rw [heq]
    exact h.names
  below := by
    intro s hs'
    rw [hb] at hs'
    obtain ⟨r, hr, rfl⟩ := List.mem_map.mp hs'
    rw [(hf r).1]
    exact Nat.lt_of_lt_of_le (h.below r hr) hs

theorem sublist (hb : t'.boundary.Sublist t.boundary)
    (hs : t.supply ≤ t'.supply) : t'.Identified where
  ids := h.ids.sublist (hb.map _)
  names := h.names.sublist (hb.map _)
  below := fun s hs' => Nat.lt_of_lt_of_le (h.below s (hb.subset hs')) hs

theorem append (hid : s.id = ⟨t.supply⟩)
    (hnew : ∀ r ∈ t.boundary, ¬(r.side = s.side ∧ r.name = s.name))
    (hb : t'.boundary = t.boundary ++ [s]) (hs : t'.supply = t.supply + 1) : t'.Identified where
  ids := by
    rw [hb, List.map_append, List.nodup_append]
    refine ⟨h.ids, List.nodup_singleton _, ?_⟩
    intro y hy z hz
    obtain ⟨r, hr, rfl⟩ := List.mem_map.mp hy
    intro heq
    have hlt := h.below r hr
    rw [heq, List.mem_singleton.mp hz] at hlt
    dsimp only at hlt
    rw [hid] at hlt
    exact Nat.lt_irrefl _ hlt
  names := by
    rw [hb, List.map_append, List.nodup_append]
    refine ⟨h.names, List.nodup_singleton _, ?_⟩
    intro y hy z hz
    obtain ⟨r, hr, rfl⟩ := List.mem_map.mp hy
    rw [List.mem_singleton.mp hz]
    exact fun heq => hnew r hr (Prod.mk.inj heq)
  below := by
    intro r hr
    rw [hs]
    rw [hb] at hr
    rcases List.mem_append.mp hr with hr | hr
    · exact Nat.lt_succ_of_lt (h.below r hr)
    · rw [List.mem_singleton.mp hr, hid]
      exact Nat.lt_succ_self _

end Identified

theorem filter_side_map {f : Socket → Socket} (hf : ∀ s, (f s).side = s.side) (l : List Socket)
    (side : Side) :
    (l.map f).filter (·.side == side) = (l.filter (·.side == side)).map f := by
  rw [List.filter_map]
  congr 2
  funext s
  rw [Function.comp_apply, hf]

def fitNamed (side : Side) (name : String) (type : SocketType) (s : Socket) : Socket :=
  if s.side = side ∧ s.name = name then s.fit type else s

theorem fitNamed_keeps (s : Socket) : (fitNamed side name type s).id = s.id ∧
    (fitNamed side name type s).side = s.side ∧ (fitNamed side name type s).name = s.name := by
  unfold fitNamed
  split <;> simp

structure Asked (side : Side) (name : String) (type : SocketType) (added : List Socket)
    (x : SocketId) (t t' : Tree) : Prop where
  editor : t'.editor = t.editor
  supply : t.supply ≤ t'.supply
  identified : t'.Identified
  boundary : t'.boundary = t.boundary.map (fitNamed side name type) ++ added
  source : (added = [] ∧ ∃ s ∈ t.boundary, s.side = side ∧ s.name = name ∧ s.id = x) ∨
    (∀ s ∈ t.boundary, ¬(s.side = side ∧ s.name = name)) ∧
      x = ⟨t.supply⟩ ∧ added = [⟨x, name, side, type, none, false⟩]

theorem Identified.map_fitNamed (h : t.Identified) (hs : t.boundaryNamed? side name = some s)
    (type : SocketType) :
    t.boundary.map (fitNamed side name type) =
      t.boundary.map fun r => if r.id == s.id then r.fit type else r := by
  refine List.map_congr_left fun r hr => ?_
  obtain ⟨hside, hname⟩ := of_boundaryNamed? hs
  have hiff : (r.side = side ∧ r.name = name) ↔ r.id = s.id := by
    constructor
    · rintro ⟨hside', hname'⟩
      rw [h.eq_of_name hr (mem_of_boundaryNamed? hs) (hside'.trans hside.symm)
        (hname'.trans hname.symm)]
    · intro hid
      rw [h.eq_of_id hr (mem_of_boundaryNamed? hs) hid]
      exact ⟨hside, hname⟩
  simp only [fitNamed, hiff, beq_iff_eq]

theorem boundaryNamed?_eq_none : t.boundaryNamed? side name = none ↔
    ∀ s ∈ t.boundary, ¬(s.side = side ∧ s.name = name) := by
  simp [boundaryNamed?, List.find?_eq_none]

theorem socketFor_asked (h : t.Identified) (hrun : socketFor side name type t = (.ok x, t')) :
    ∃ wanted added, t.adjustType type = .ok wanted ∧ Asked side name wanted added x t t' := by
  rw [socketFor_run h.ids] at hrun
  cases ha : t.adjustType type with
  | error fault =>
    rw [ha] at hrun
    cases hrun
  | ok wanted =>
    rw [ha] at hrun
    dsimp only at hrun
    cases hb : t.boundaryNamed? side name with
    | none =>
      rw [hb] at hrun
      cases hrun
      have hnew := boundaryNamed?_eq_none.mp hb
      have hsame : t.boundary.map (fitNamed side name wanted) = t.boundary :=
        (List.map_congr_left fun s hs => if_neg (hnew s hs)).trans (List.map_id _)
      refine ⟨wanted, _, rfl, rfl, Nat.le_succ _, h.append rfl hnew rfl rfl, ?_,
        .inr ⟨hnew, rfl, rfl⟩⟩
      rw [hsame]
      rfl
    | some s =>
      rw [hb] at hrun
      obtain ⟨hside, hname⟩ := of_boundaryNamed? hb
      have hmem := mem_of_boundaryNamed? hb
      have hsource : ([] : List Socket) = [] ∧
          ∃ r ∈ t.boundary, r.side = side ∧ r.name = name ∧ r.id = s.id :=
        ⟨rfl, s, hmem, hside, hname, rfl⟩
      have hfit := h.map_fitNamed hb wanted
      by_cases hw : s.type = wanted
      · simp only [hw, if_true] at hrun
        cases hrun
        refine ⟨wanted, [], rfl, rfl, Nat.le_refl _, h, ?_, .inl hsource⟩
        rw [List.append_nil, hfit]
        refine ((List.map_congr_left fun r hr => ?_).trans (List.map_id _)).symm
        split
        · next hid => exact Socket.fit_of_type (h.eq_of_id hr hmem (beq_iff_eq.mp hid) ▸ hw)
        · rfl
      · simp only [hw, if_false] at hrun
        cases hrun
        obtain ⟨links, heq, -, -⟩ := t.retyped_eq s.id wanted
        have hboundary : (t.retyped s.id wanted).boundary =
            t.boundary.map (fitNamed side name wanted) := by
          rw [heq, hfit]
          refine List.map_congr_left fun r hr => ?_
          split
          · next hid =>
            rw [h.eq_of_id hr hmem (beq_iff_eq.mp hid), Socket.fit, if_neg hw]
          · rfl
        have hsupply : (t.retyped s.id wanted).supply = t.supply := by
          rw [heq]
          rfl
        refine ⟨wanted, [], rfl, ?_, Nat.le_of_eq hsupply.symm,
          h.map fitNamed_keeps hboundary (Nat.le_of_eq hsupply.symm), ?_, .inl hsource⟩
        · rw [heq]
          rfl
        · rw [List.append_nil, hboundary]

namespace Asked

variable {added : List Socket} (ha : Asked side name type added x t t')
include ha

theorem side_of_added (hs : s ∈ added) : s.side = side := by
  rcases ha.source with ⟨rfl, -⟩ | ⟨-, -, rfl⟩
  · cases hs
  · rw [List.mem_singleton.mp hs]

theorem map_name_added :
    added.map (·.name) = [name].filter (· ∉ (t.socketsOn side).map (·.name)) := by
  have hiff : name ∈ (t.socketsOn side).map (·.name) ↔
      ∃ s ∈ t.boundary, s.side = side ∧ s.name = name := by
    simp [socketsOn, and_assoc]
  rcases ha.source with ⟨rfl, s, hs, hside, hname, -⟩ | ⟨hnew, -, rfl⟩
  · rw [List.filter_cons_of_neg (by simpa using hiff.mpr ⟨s, hs, hside, hname⟩)]
    rfl
  · have hnot : name ∉ (t.socketsOn side).map (·.name) := by
      intro hin
      obtain ⟨s, hs, hsn⟩ := hiff.mp hin
      exact hnew s hs hsn
    rw [List.filter_cons_of_pos (by simpa using hnot)]
    rfl

theorem ne_of_other (hi : t.Identified) (hs : s ∈ t.boundary)
    (hother : ¬(s.side = side ∧ s.name = name)) : s.id ≠ x := by
  rintro rfl
  rcases ha.source with ⟨-, r, hr, hside, hname, hid⟩ | ⟨-, hnew, -⟩
  · rw [hi.eq_of_id hr hs hid] at hside hname
    exact hother ⟨hside, hname⟩
  · have hlt := hi.below s hs
    rw [hnew] at hlt
    exact Nat.lt_irrefl _ hlt

end Asked

section Declared

variable {wanted : String → Option SocketType} {names rest : List String}
  {added fresh : List Socket}

def inputNames (t : Tree) : List String := (t.socketsOn .input).map (·.name)

def fitInputs (wanted : String → Option SocketType) (names : List String) (s : Socket) : Socket :=
  if s.side = .input ∧ s.name ∈ names then s.fitted wanted else s

theorem fitInputs_keeps (s : Socket) : (fitInputs wanted names s).id = s.id ∧
    (fitInputs wanted names s).side = s.side ∧ (fitInputs wanted names s).name = s.name := by
  unfold fitInputs
  split
  · exact Socket.fitted_keeps s
  · exact ⟨rfl, rfl, rfl⟩

structure Declared (wanted : String → Option SocketType) (names : List String)
    (fresh : List Socket) (t t' : Tree) : Prop where
  editor : t'.editor = t.editor
  identified : t'.Identified
  boundary : t'.boundary = t.boundary.map (fitInputs wanted names) ++ fresh
  types : ∀ name ∈ names, (wanted name).isSome
  listed : fresh.map (·.name) = (names.filter (· ∉ t.inputNames)).eraseDups
  made : ∀ s ∈ fresh, s.side = .input ∧ wanted s.name = some s.type ∧ s.default = none ∧
    t.supply ≤ s.id.index

theorem Declared.nil (h : t.Identified) : Declared wanted [] [] t t where
  editor := rfl
  identified := h
  boundary := by
    rw [List.append_nil]
    exact ((List.map_congr_left fun s _ => if_neg (by simp)).trans (List.map_id _)).symm
  types := by simp
  listed := rfl
  made := by simp

/-- An input keeps the type that it was declared with. -/
theorem fitInputs_fitNamed (hw : wanted name = some type) (s : Socket) :
    fitInputs wanted rest (fitNamed .input name type s) = fitInputs wanted (name :: rest) s := by
  by_cases hs : s.side = .input ∧ s.name = name
  · have hfitted : s.fitted wanted = s.fit type := Socket.fitted_of_some (hs.2 ▸ hw)
    have htwice : (s.fit type).fitted wanted = s.fit type := by
      rw [Socket.fitted_of_some (by rw [Socket.name_fit, hs.2]; exact hw)]
      exact Socket.fit_of_type Socket.type_fit
    rw [fitNamed, if_pos hs, fitInputs, htwice, ite_self, fitInputs, hfitted,
      if_pos ⟨hs.1, hs.2 ▸ List.mem_cons_self⟩]
  · rw [fitNamed, if_neg hs, fitInputs, fitInputs]
    refine if_congr ?_ rfl rfl
    simp only [List.mem_cons]
    constructor
    · rintro ⟨hside, hname⟩
      exact ⟨hside, .inr hname⟩
    · rintro ⟨hside, rfl | hname⟩
      · exact absurd ⟨hside, rfl⟩ hs
      · exact ⟨hside, hname⟩

namespace Asked

variable (ha : Asked .input name type added x t t')
include ha

theorem inputNames : t'.inputNames = t.inputNames ++ added.map (·.name) := by
  unfold Tree.inputNames socketsOn
  rw [ha.boundary, List.filter_append, List.map_append,
    filter_side_map fun s => (fitNamed_keeps s).2.1, List.map_map]
  congr 1
  · exact List.map_congr_left fun s _ => (fitNamed_keeps s).2.2
  · rw [List.filter_eq_self.mpr fun s hs => beq_iff_eq.mpr (ha.side_of_added hs)]

theorem filter_names : added.map (·.name) ++ (rest.filter (· ∉ t'.inputNames)).eraseDups =
    ((name :: rest).filter (· ∉ t.inputNames)).eraseDups := by
  have hadded : added.map (·.name) = [name].filter (· ∉ t.inputNames) := ha.map_name_added
  rw [ha.inputNames, hadded]
  by_cases hin : name ∈ t.inputNames
  · simp [hin]
  · have hfirst : ∀ l : List String,
        (name :: l).filter (· ∉ t.inputNames) = name :: l.filter (· ∉ t.inputNames) :=
      fun l => List.filter_cons_of_pos (decide_eq_true hin)
    rw [hfirst, hfirst, List.filter_nil, List.eraseDups_cons, List.filter_filter,
      List.singleton_append]
    congr 3
    funext y
    by_cases hy : y = name <;> simp [hy]

theorem declared (hw : wanted name = some type) (hd : Declared wanted rest fresh t' t'') :
    Declared wanted (name :: rest) (added ++ fresh) t t'' where
  editor := hd.editor.trans ha.editor
  identified := hd.identified
  boundary := by
    have hadded : added.map (fitInputs wanted rest) = added := by
      rcases ha.source with ⟨rfl, -⟩ | ⟨-, -, rfl⟩
      · rfl
      · have hfit := Socket.fit_of_type (s := ⟨x, name, .input, type, none, false⟩) rfl
        rw [List.map_singleton, fitInputs, Socket.fitted_of_some hw, hfit, ite_self]
    -- what was declared first is not changed by declaring the rest
    rw [hd.boundary, ha.boundary, List.map_append, List.map_map, hadded, List.append_assoc]
    congr 1
    exact List.map_congr_left fun s _ => fitInputs_fitNamed hw s
  types := by
    intro y hy
    rcases List.mem_cons.mp hy with rfl | hy
    · rw [hw]
      rfl
    · exact hd.types y hy
  listed := by rw [List.map_append, hd.listed, ha.filter_names]
  made := by
    intro s hs
    rcases List.mem_append.mp hs with hs | hs
    · rcases ha.source with ⟨rfl, -⟩ | ⟨-, rfl, rfl⟩
      · cases hs
      · rw [List.mem_singleton.mp hs]
        exact ⟨rfl, hw, rfl, Nat.le_refl _⟩
    · obtain ⟨hside, htype, hdefault, hle⟩ := hd.made s hs
      exact ⟨hside, htype, hdefault, Nat.le_trans ha.supply hle⟩

end Asked

namespace Declared

variable (hd : Declared wanted names fresh t t')
include hd

theorem name_mem (hs : s ∈ fresh) : s.name ∈ names := by
  have hname : s.name ∈ fresh.map (·.name) := List.mem_map_of_mem hs
  rw [hd.listed, List.mem_eraseDups] at hname
  exact (List.mem_filter.mp hname).1

/-- The inputs of the names are in their old order, with the new ones after
them. -/
theorem inputs_keepInputs : (t'.keepInputs names).socketsOn .input =
    ((t.socketsOn .input).filter (·.name ∈ names)).map (·.fitted wanted) ++ fresh := by
  have hold : (t.boundary.map (fitInputs wanted names)).filter
      (fun s => s.side == .input && decide (s.side = .output ∨ s.name ∈ names)) =
      ((t.socketsOn .input).filter (·.name ∈ names)).map (·.fitted wanted) := by
    rw [List.filter_map, socketsOn, List.filter_filter]
    have hp : ((fun s : Socket => s.side == .input && decide (s.side = .output ∨ s.name ∈ names)) ∘
        fitInputs wanted names) = fun s => decide (s.name ∈ names) && s.side == .input := by
      funext s
      simp only [Function.comp_apply, (fitInputs_keeps s).2]
      cases s.side <;> simp
    rw [hp]
    refine List.map_congr_left fun s hs => ?_
    obtain ⟨-, hs⟩ := List.mem_filter.mp hs
    rw [Bool.and_eq_true, decide_eq_true_eq, beq_iff_eq] at hs
    exact if_pos hs.symm
  rw [socketsOn, boundary_keepInputs hd.identified.ids, hd.boundary, List.filter_filter,
    List.filter_append, hold]
  congr 1
  refine List.filter_eq_self.mpr fun s hs => ?_
  simp [(hd.made s hs).1, hd.name_mem hs]

theorem outputs_keepInputs : (t'.keepInputs names).socketsOn .output = t.socketsOn .output := by
  have hall : (t'.keepInputs names).socketsOn .output = t'.socketsOn .output := by
    rw [socketsOn, boundary_keepInputs hd.identified.ids, List.filter_filter, socketsOn]
    refine List.filter_congr fun s _ => ?_
    cases s.side <;> simp
  have hfresh : fresh.filter (·.side == .output) = [] :=
    List.filter_eq_nil_iff.mpr fun s hs => by simp [(hd.made s hs).1]
  rw [hall, socketsOn, hd.boundary, List.filter_append, hfresh, List.append_nil,
    filter_side_map fun s => (fitInputs_keeps s).2.1]
  refine (List.map_congr_left fun s hs => if_neg ?_).trans (List.map_id _)
  rintro ⟨hside, -⟩
  have hs := (List.mem_filter.mp hs).2
  rw [hside] at hs
  cases hs

end Declared

end Declared

end Tree

end FormulaGraph
