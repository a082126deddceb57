import FormulaGraph.Pass.Frame
import FormulaGraph.Proofs.Graph.View
import Mathlib.Data.List.Perm.Subperm
import Mathlib.Logic.Relation

/-!
Frames and what is in them, directly or through other frames.
-/

namespace FormulaGraph.Tree

open Relation

variable {limit : Nat} {t t' : Tree} {x y z frame root member : NodeId}

def InFrame (t : Tree) (x frame : NodeId) : Prop := t.parent? x = some frame

theorem inFrame_iff : t.InFrame x frame ↔ ∃ n, t.node? x = some n ∧ n.parent = some frame :=
  Option.bind_eq_some_iff

theorem reaches_of_mem_ancestryWithin (h : y ∈ t.ancestryWithin limit x) :
    ReflTransGen t.InFrame x y := by
  induction limit generalizing x with
  | zero =>
    rw [List.mem_singleton.mp h]
  | succ limit ih =>
    unfold ancestryWithin at h
    cases hp : t.parent? x with
    | none =>
      rw [hp] at h
      rw [List.mem_singleton.mp h]
    | some parent =>
      rw [hp] at h
      rcases List.mem_cons.mp h with rfl | h
      · exact .refl
      · exact .head hp (ih h)

def Nested (t : Tree) : Prop := ∀ x, ¬TransGen t.InFrame x x

theorem Nested.mono (h : t.Nested) (hle : ∀ x y, t'.InFrame x y → t.InFrame x y) : t'.Nested :=
  fun x hx => h x (TransGen.mono hle x x hx)

/-- Frames are nested if they are outside of what they hold by some measure. -/
theorem nested_of_rank (rank : NodeId → Nat)
    (h : ∀ n ∈ t.nodes, ∀ f, n.parent = some f → rank n.id < rank f) : t.Nested := by
  have lt : ∀ {x y}, TransGen t.InFrame x y → rank x < rank y := by
    intro x y hxy
    induction hxy with
    | single hstep =>
      obtain ⟨n, hn, hp⟩ := inFrame_iff.mp hstep
      exact id_of_node? hn ▸ h n (mem_of_node? hn) _ hp
    | tail _ hstep ih =>
      obtain ⟨n, hn, hp⟩ := inFrame_iff.mp hstep
      exact Nat.lt_trans ih (id_of_node? hn ▸ h n (mem_of_node? hn) _ hp)
  exact fun x hx => Nat.lt_irrefl _ (lt hx)

section Ancestry

theorem ancestryWithin_of_none (h : t.parent? x = none) : t.ancestryWithin (limit + 1) x = [x] := by
  rw [ancestryWithin, h]

theorem ancestryWithin_of_some (h : t.parent? x = some y) :
    t.ancestryWithin (limit + 1) x = x :: t.ancestryWithin limit y := by
  rw [ancestryWithin, h]

theorem ancestryWithin_eq_cons (t : Tree) (limit : Nat) (x : NodeId) :
    t.ancestryWithin limit x = x :: (t.ancestryWithin limit x).tail := by
  cases limit with
  | zero => rfl
  | succ limit =>
    unfold ancestryWithin
    split <;> rfl

theorem self_mem_ancestryWithin (t : Tree) (limit : Nat) (x : NodeId) :
    x ∈ t.ancestryWithin limit x := by
  rw [ancestryWithin_eq_cons]
  exact List.mem_cons_self

def CutOff (t : Tree) (limit : Nat) (x : NodeId) : Prop :=
  (t.ancestryWithin limit x).length = limit + 1 ∧
    ∀ y ∈ t.ancestryWithin limit x, (t.parent? y).isSome = true

theorem CutOff.zero (h : (t.parent? x).isSome = true) : t.CutOff 0 x := by
  refine ⟨rfl, fun y hy => ?_⟩
  rw [List.mem_singleton.mp hy]
  exact h

theorem CutOff.succ (hp : t.parent? x = some y) (h : t.CutOff limit y) :
    t.CutOff (limit + 1) x := by
  unfold CutOff ancestryWithin
  rw [hp]
  refine ⟨congrArg (· + 1) h.1, fun z hz => ?_⟩
  rcases List.mem_cons.mp hz with rfl | hz
  · rw [hp]
    rfl
  · exact h.2 z hz

theorem Nested.nodup_ancestryWithin (h : t.Nested) (limit : Nat) (x : NodeId) :
    (t.ancestryWithin limit x).Nodup := by
  induction limit generalizing x with
  | zero => exact List.nodup_singleton x
  | succ limit ih =>
    unfold ancestryWithin
    cases hp : t.parent? x with
    | none => exact List.nodup_singleton x
    | some parent =>
      refine List.nodup_cons.mpr ⟨fun hx => ?_, ih parent⟩
      exact h x (TransGen.head' hp (reaches_of_mem_ancestryWithin hx))

theorem Nested.not_cutOff (h : t.Nested) (hl : t.nodes.length ≤ limit) (x : NodeId) :
    ¬t.CutOff limit x := by
  rintro ⟨hlength, hin⟩
  have hsub : t.ancestryWithin limit x ⊆ t.nodes.map (·.id) := by
    intro y hy
    obtain ⟨parent, hp⟩ := Option.isSome_iff_exists.mp (hin y hy)
    obtain ⟨n, hn, -⟩ := inFrame_iff.mp hp
    exact List.mem_map.mpr ⟨n, mem_of_node? hn, id_of_node? hn⟩
  have := (List.subperm_of_subset (h.nodup_ancestryWithin limit x) hsub).length_le
  rw [hlength, List.length_map] at this
  omega

/-- More room does not show unless the frames have been cut off. -/
theorem ancestryWithin_succ (t : Tree) (limit : Nat) (x : NodeId) :
    t.ancestryWithin (limit + 1) x = t.ancestryWithin limit x ∨ t.CutOff limit x := by
  induction limit generalizing x with
  | zero =>
    unfold ancestryWithin
    cases hp : t.parent? x with
    | none => exact .inl rfl
    | some parent => exact .inr (.zero (by rw [hp]; rfl))
  | succ limit ih =>
    cases hp : t.parent? x with
    | none => exact .inl (by rw [ancestryWithin_of_none hp, ancestryWithin_of_none hp])
    | some parent =>
      rcases ih parent with heq | hcut
      · exact .inl (by rw [ancestryWithin_of_some hp, heq, ancestryWithin_of_some hp])
      · exact .inr (.succ hp hcut)

theorem Nested.ancestryWithin_eq (h : t.Nested) (hl : t.nodes.length ≤ limit) (x : NodeId) :
    t.ancestryWithin limit x = t.ancestry x := by
  obtain ⟨more, rfl⟩ := Nat.exists_eq_add_of_le hl
  induction more with
  | zero => rfl
  | succ more ih =>
    have hroom := h.not_cutOff (Nat.le_add_right t.nodes.length more) x
    exact ((t.ancestryWithin_succ _ x).resolve_right hroom).trans (ih (Nat.le_add_right _ _))

theorem mem_ancestryWithin_of_parent (hy : y ∈ t.ancestryWithin limit x)
    (hp : t.parent? y = some z) :
    z ∈ t.ancestryWithin limit x ∨ t.CutOff limit x := by
  induction limit generalizing x with
  | zero =>
    rw [List.mem_singleton.mp hy] at hp
    exact .inr (.zero (by rw [hp]; rfl))
  | succ limit ih =>
    cases hx : t.parent? x with
    | none =>
      rw [ancestryWithin_of_none hx] at hy
      rw [List.mem_singleton.mp hy, hx] at hp
      cases hp
    | some parent =>
      rw [ancestryWithin_of_some hx] at hy ⊢
      rcases List.mem_cons.mp hy with rfl | hy
      · rw [hx] at hp
        cases hp
        exact .inl (List.mem_cons_of_mem _ (t.self_mem_ancestryWithin limit z))
      · rcases ih hy with hz | hcut
        · exact .inl (List.mem_cons_of_mem _ hz)
        · exact .inr (.succ hx hcut)

theorem Nested.mem_ancestry (h : t.Nested) (hxy : ReflTransGen t.InFrame x y) :
    y ∈ t.ancestry x := by
  induction hxy with
  | refl => exact t.self_mem_ancestryWithin _ x
  | tail _ hstep ih =>
    exact (mem_ancestryWithin_of_parent ih hstep).resolve_right (h.not_cutOff (Nat.le_refl _) x)

end Ancestry

theorem reaches_outermostBelow (t : Tree) (frame x : NodeId) :
    ReflTransGen t.InFrame x (t.outermostBelow frame x) := by
  unfold outermostBelow
  rw [List.getLastD_eq_getLast?, List.getLast?_cons, Option.getD_some]
  cases hlast : ((t.ancestry x).tail.takeWhile (· != frame)).getLast? with
  | none => exact .refl
  | some y =>
    have hmem := List.mem_of_getLast? hlast
    exact reaches_of_mem_ancestryWithin
      (List.mem_of_mem_tail ((List.takeWhile_sublist _).subset hmem))

theorem reaches_movedRoot? (h : t.movedRoot? frame member = some root) :
    ReflTransGen t.InFrame member root := by
  unfold movedRoot? at h
  dsimp only at h
  split at h
  · cases h
  · cases h
    exact reaches_outermostBelow t frame member

theorem reaches_of_movedRoot? (h : t.movedRoot? frame member = none) :
    ReflTransGen t.InFrame frame (t.outermostBelow frame member) := by
  unfold movedRoot? at h
  dsimp only at h
  split at h
  · next hor =>
    rcases hor with heq | hmem
    · rw [heq]
    · exact reaches_of_mem_ancestryWithin hmem
  · cases h

theorem parent_addedNode (type : NodeType) (setup : NodeSetup) :
    (t.addedNode type setup).parent = none := by
  unfold addedNode
  cases setup.name <;> rfl

theorem node?_of_addNode {type : NodeType} {setup : NodeSetup} {n : Node}
    (hb : ∀ m ∈ t.nodes, m.id.index < t.supply) (hn : (t.addNode type setup).1.node? x = some n)
    (hp : n.parent = some y) : t.node? x = some n := by
  rw [node?_addNode hb] at hn
  split at hn
  · cases hn
    rw [parent_addedNode] at hp
    cases hp
  · exact hn

theorem Nested.addNode (h : t.Nested) (hb : ∀ m ∈ t.nodes, m.id.index < t.supply)
    (type : NodeType) (setup : NodeSetup) : (t.addNode type setup).1.Nested := by
  refine h.mono fun a b hab => ?_
  obtain ⟨n, hn, hp⟩ := inFrame_iff.mp hab
  exact inFrame_iff.mpr ⟨n, node?_of_addNode hb hn hp, hp⟩

theorem parent?_modifyNode {f : Node → Node} (hid : ∀ n, (f n).id = n.id)
    (hp : ∀ n, (f n).parent = n.parent) : (t.modifyNode x f).parent? y = t.parent? y := by
  unfold parent?
  rw [node?_modifyNode hid]
  cases t.node? y with
  | none => rfl
  | some n =>
    dsimp only [Option.map_some, Option.bind_some]
    split
    · exact hp n
    · rfl

theorem Nested.modifyNode {f : Node → Node} (h : t.Nested) (hid : ∀ n, (f n).id = n.id)
    (hp : ∀ n, (f n).parent = n.parent) : (t.modifyNode x f).Nested := by
  refine h.mono fun a b hab => ?_
  rw [InFrame, parent?_modifyNode hid hp] at hab
  exact hab

theorem node?_setParent (frame root : NodeId) : (t.setParent frame root).node? x =
    (t.node? x).map fun n => if x = root then { n with parent := some frame } else n := by
  unfold setParent
  exact node?_modifyNode fun _ => rfl

theorem inFrame_of_setParent (h : (t.setParent frame root).InFrame x y) :
    t.InFrame x y ∨ x = root ∧ y = frame := by
  obtain ⟨n, hn, hp⟩ := inFrame_iff.mp h
  rw [node?_setParent] at hn
  obtain ⟨m, hm, rfl⟩ := Option.map_eq_some_iff.mp hn
  by_cases hx : x = root
  · rw [if_pos hx] at hp
    cases hp
    exact .inr ⟨hx, rfl⟩
  · rw [if_neg hx] at hp
    exact .inl (inFrame_iff.mpr ⟨m, hm, hp⟩)

/-- What is around a node after another one was put into a frame was so before,
or is the frame or around it. -/
theorem reaches_of_setParent (h : TransGen (t.setParent frame root).InFrame x y) :
    TransGen t.InFrame x y ∨ ReflTransGen t.InFrame frame y := by
  induction h with
  | single hstep =>
    rcases inFrame_of_setParent hstep with h | ⟨-, rfl⟩
    · exact .inl (.single h)
    · exact .inr .refl
  | tail _ hstep ih =>
    rcases inFrame_of_setParent hstep with h | ⟨-, rfl⟩
    · rcases ih with hxy | hframe
      · exact .inl (.tail hxy h)
      · exact .inr (.tail hframe h)
    · exact .inr .refl

/-- Dually, what a node was not in before holds what was put into the frame. -/
theorem reaches_root_of_setParent (h : TransGen (t.setParent frame root).InFrame x y) :
    TransGen t.InFrame x y ∨ ReflTransGen t.InFrame x root := by
  induction h using TransGen.head_induction_on with
  | single hstep =>
    rcases inFrame_of_setParent hstep with h | ⟨rfl, -⟩
    · exact .inl (.single h)
    · exact .inr .refl
  | head hstep _ ih =>
    rcases inFrame_of_setParent hstep with h | ⟨rfl, -⟩
    · rcases ih with hxy | hroot
      · exact .inl (.head h hxy)
      · exact .inr (.head h hroot)
    · exact .inr .refl

theorem Nested.setParent (h : t.Nested) (hroot : ¬ReflTransGen t.InFrame frame root) :
    (t.setParent frame root).Nested := by
  intro x hx
  rcases reaches_of_setParent hx with hxx | hframe
  · exact h x hxx
  · rcases reaches_root_of_setParent hx with hxx | hto
    · exact h x hxx
    · exact hroot (hframe.trans hto)

theorem not_reaches_setParent (h : ¬ReflTransGen t.InFrame frame x) :
    ¬ReflTransGen (t.setParent frame root).InFrame frame x := by
  intro hreach
  rcases reflTransGen_iff_eq_or_transGen.mp hreach with rfl | hreach
  · exact h .refl
  · exact (reaches_of_setParent hreach).elim (fun hx => h hx.to_reflTransGen) h

theorem free_setParent (root : NodeId) (h : t.parent? x = none ∨ t.parent? x = some frame) :
    (t.setParent frame root).parent? x = none ∨
      (t.setParent frame root).parent? x = some frame := by
  unfold parent? at h ⊢
  rw [node?_setParent]
  cases hn : t.node? x with
  | none => exact .inl rfl
  | some n =>
    rw [hn] at h
    by_cases hx : x = root
    · exact .inr (by simp [hx])
    · simpa [hx] using h

/-- Nothing moves into a frame that is around that frame. -/
theorem Nested.not_reaches_movedRoot? (h : t.Nested) (hm : t.movedRoot? frame member = some root) :
    ¬ReflTransGen t.InFrame frame root := by
  unfold movedRoot? at hm
  dsimp only at hm
  split at hm
  · cases hm
  · next hno =>
    cases hm
    exact fun hreach => hno (.inr (h.mem_ancestry hreach))

/-- Where climbing out of frames ends, there is no frame left or the given one,
unless the frames have been cut off. -/
theorem parent?_climbed (t : Tree) (frame : NodeId) (limit : Nat) (x : NodeId) :
    t.parent? (((t.ancestryWithin limit x).tail.takeWhile (· != frame)).getLastD x) = none ∨
      t.parent? (((t.ancestryWithin limit x).tail.takeWhile (· != frame)).getLastD x) = some frame ∨
      t.CutOff limit x := by
  induction limit generalizing x with
  | zero =>
    cases hp : t.parent? x with
    | none => exact .inl hp
    | some parent => exact .inr (.inr (.zero (by rw [hp]; rfl)))
  | succ limit ih =>
    cases hp : t.parent? x with
    | none =>
      rw [ancestryWithin_of_none hp]
      exact .inl hp
    | some parent =>
      rw [ancestryWithin_of_some hp, List.tail_cons, ancestryWithin_eq_cons]
      by_cases hf : parent = frame
      · rw [List.takeWhile_cons_of_neg (by simpa using hf)]
        exact .inr (.inl (hf ▸ hp))
      · rw [List.takeWhile_cons_of_pos (by simpa using hf), List.getLastD_cons]
        exact (ih parent).imp_right (·.imp_right (.succ hp))

theorem Nested.parent?_outermostBelow (h : t.Nested) (frame x : NodeId) :
    t.parent? (t.outermostBelow frame x) = none ∨
      t.parent? (t.outermostBelow frame x) = some frame := by
  have hroom := h.not_cutOff (Nat.le_refl _) x
  have hfree := t.parent?_climbed frame t.nodes.length x
  unfold outermostBelow ancestry
  rw [List.getLastD_cons]
  exact hfree.imp_right (·.resolve_right hroom)

theorem Nested.parent?_movedRoot? (h : t.Nested) (hm : t.movedRoot? frame member = some root) :
    t.parent? root = none ∨ t.parent? root = some frame := by
  unfold movedRoot? at hm
  dsimp only at hm
  split at hm
  · cases hm
  · cases hm
    exact h.parent?_outermostBelow frame member

end FormulaGraph.Tree
