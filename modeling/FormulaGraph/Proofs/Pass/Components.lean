import FormulaGraph.Proofs.Pass.Calls

/-!
Calls on vectors, one component at a time, and calls composed of others. With
these every call that passes the checks is built, and its handle stands for the
lowered call.
-/

namespace FormulaGraph

open Run Numeric

namespace Lowered

variable {axis : Nat} {x : Lowered}

theorem component_of_vector (h : x.isVector = true) :
    component axis x = (Blueprint.separate axis x).lower := if_pos h

theorem component_of_scalar (h : x.isVector = false) : component axis x = x :=
  if_neg (by rw [h]; simp)

theorem kind_component_ne (axis : Nat) (x : Lowered) : (component axis x).kind ≠ .vector := by
  cases h : x.isVector with
  | true =>
    rw [component_of_vector h]
    simp [Blueprint.lower, Blueprint.separate, kind]
  | false =>
    rw [component_of_scalar h]
    intro hk
    simp [isVector, hk] at h

theorem numeric_component (axis : Nat) (h : x.kind.isNumeric = true) :
    (component axis x).kind.isNumeric = true := by
  cases hv : x.isVector with
  | true =>
    rw [component_of_vector hv]
    rfl
  | false =>
    rw [component_of_scalar hv]
    exact h

end Lowered

theorem Function.isNumeric_resultKind (f : Function) (flags : List Bool) :
    (f.resultKind flags).isNumeric = true := by
  unfold resultKind
  split <;> rfl

namespace Pass

variable {roster : List Handle} {editor : Editor} {p p' : Pass} {tag : String} {f : Function}
  {z : Operand × Lowered} {zs : List (Operand × Lowered)}

def pick : Nat → Operand × Operand × Operand → Operand
  | 0, split => split.1
  | 1, split => split.2.1
  | _, split => split.2.2

theorem means_pick {x : Lowered} {a b c : Operand} (ha : Means roster p a (.component 0 x))
    (hb : Means roster p b (.component 1 x)) (hc : Means roster p c (.component 2 x)) :
    ∀ axis < 3, Means roster p (pick axis (a, b, c)) (.component axis x) := by
  intro axis h
  match axis, h with
  | 0, _ => exact ha
  | 1, _ => exact hb
  | 2, _ => exact hc

theorem axes_gives (hp : p.Orderly roster) (hz : Means roster p z.1 z.2)
    (hn : z.2.kind.isNumeric = true) : Gives roster (axes z.1) p fun r p' =>
      (∀ axis < 3, Means roster p' (pick axis r.1) (.component axis z.2)) ∧
        ∀ m ∈ r.2, p'.Settled m := by
  obtain ⟨o, x⟩ := z
  have same : ∀ {q : Pass}, Means roster q o x → x.isVector = false →
      ∀ axis < 3, Means roster q (pick axis (o, o, o)) (.component axis x) := by
    intro q hq hv
    have hc : ∀ axis, Means roster q o (.component axis x) := fun axis => by
      rw [Lowered.component_of_scalar hv]
      exact hq
    exact means_pick (hc 0) (hc 1) (hc 2)
  cases hz with
  | @carried h kind type m known kind_eq carries type_eq reads =>
    have hm : Means roster p (.handle h) (.carried kind type m) :=
      .carried known kind_eq carries type_eq reads
    have hvector := hm.isVector_eq
    unfold axes
    dsimp only
    cases hv : (Operand.handle h).isVector with
    | false =>
      rw [if_neg (by simp)]
      exact .pure hp ⟨same hm (hvector.symm.trans hv), by simp⟩
    | true =>
      rw [if_pos rfl]
      refine (separate_gives hp hm hn).bind fun parts p' hp' _ hparts => ?_
      refine .pure hp' ⟨means_pick ?_ ?_ ?_, ?_⟩
      · rw [Lowered.component_of_vector (hvector.symm.trans hv)]
        exact hparts.1
      · rw [Lowered.component_of_vector (hvector.symm.trans hv)]
        exact hparts.2.1
      · rw [Lowered.component_of_vector (hvector.symm.trans hv)]
        exact hparts.2.2
      · exact List.forall_mem_singleton.mpr (hparts.1.settled hp')
  | number => exact .pure hp ⟨same .number rfl, by simp⟩

/-- Arguments split by components: along each axis there are arguments that
stand for the components. -/
def Along (roster : List Handle) (p : Pass) (zs : List (Operand × Lowered))
    (split : List (Operand × Operand × Operand)) : Prop :=
  ∀ axis < 3, ∃ ws : List (Operand × Lowered), ws.map Prod.fst = split.map (pick axis) ∧
    ws.map Prod.snd = (zs.map Prod.snd).map (Lowered.component axis) ∧
    ∀ w ∈ ws, Means roster p w.1 w.2

theorem axesAll_gives (hp : p.Orderly roster) (hz : ∀ z ∈ zs, Means roster p z.1 z.2)
    (hn : ∀ z ∈ zs, z.2.kind.isNumeric = true) :
    Gives roster (axesAll (zs.map Prod.fst)) p fun r p' =>
      Along roster p' zs r.1 ∧ ∀ m ∈ r.2, p'.Settled m := by
  induction zs generalizing p with
  | nil => exact .pure hp ⟨fun axis _ => ⟨[], rfl, rfl, by simp⟩, by simp⟩
  | cons z zs ih =>
    rw [List.forall_mem_cons] at hz hn
    refine (axes_gives hp hz.1 hn.1).bind fun first p₁ hp₁ hg₁ hfirst => ?_
    refine (ih hp₁ (fun z hz' => (hz.2 z hz').grows hp hg₁) hn.2).bind
      fun rest p₂ hp₂ hg₂ hrest => ?_
    refine .pure hp₂ ⟨fun axis haxis => ?_, ?_⟩
    · obtain ⟨ws, hfst, hsnd, hm⟩ := hrest.1 axis haxis
      refine ⟨(pick axis first.1, .component axis z.2) :: ws, ?_, ?_, ?_⟩
      · rw [List.map_cons, hfst]
        rfl
      · rw [List.map_cons, hsnd]
        rfl
      · exact List.forall_mem_cons.mpr ⟨(hfirst.1 axis haxis).grows hp₁ hg₂, hm⟩
    · exact List.forall_mem_append.mpr ⟨fun m hm => hg₂.settled (hfirst.2 m hm), hrest.2⟩

theorem combine_gives {a b c : Operand × Lowered} (hp : p.Orderly roster)
    (ha : Numbers roster p [a]) (hb : Numbers roster p [b]) (hc : Numbers roster p [c]) :
    Gives roster (combine a.1 b.1 c.1) p fun h p' =>
      Means roster p' (.handle h) (.single .combixyz [a.2, b.2, c.2]) := by
  have hn : Numbers roster p [a, b, c] := numbers_cons.mpr ⟨ha, hb.pair hc⟩
  refine tagged_gives .combixyz [a, b, c] (fun tag => combineNode tag [a.1, b.1, c.1]) hp
    hn.means hn.numeric
    (fun q t h l hr => build_of_known hr) fun q t hq he hasked => ?_
  rw [← he]
  refine buildBy_gives hq hasked ?_ rfl
  rw [hn.flags]
  exact Function.nodal_combine _

/-- What a function gives along one axis. -/
theorem component_gives {axis : Nat} {ws : List (Operand × Lowered)} (hp : p.Orderly roster)
    (hc : f.Callable p.tree.editor (zs.map (·.2.isVector))) (hs : f.composed = false)
    (hf : f.vectorOnly = false) (hn : ∀ z ∈ zs, z.2.kind.isNumeric = true)
    (hsnd : ws.map Prod.snd = (zs.map Prod.snd).map (Lowered.component axis))
    (hw : ∀ w ∈ ws, Means roster p w.1 w.2) :
    Gives roster (applyBy scalarForm f (ws.map Prod.fst)) p fun h p' =>
      Numbers roster p' [(.handle h,
        .scalarForm p.tree.editor f ((zs.map Prod.snd).map (Lowered.component axis)))] := by
  have part : ∀ w ∈ ws, ∃ z ∈ zs, w.2 = .component axis z.2 := by
    intro w hw
    have : w.2 ∈ (zs.map Prod.snd).map (Lowered.component axis) := by
      rw [← hsnd]
      exact List.mem_map_of_mem hw
    obtain ⟨x, hx, hwx⟩ := List.mem_map.mp this
    obtain ⟨z, hz, rfl⟩ := List.mem_map.mp hx
    exact ⟨z, hz, hwx.symm⟩
  have hnumbers : Numbers roster p ws := by
    refine ⟨hw, fun w hw' => ?_, fun w hw' => ?_⟩
    · obtain ⟨z, hz, heq⟩ := part w hw'
      rw [heq]
      exact Lowered.numeric_component axis (hn z hz)
    · obtain ⟨z, -, heq⟩ := part w hw'
      rw [heq]
      exact Lowered.kind_component_ne axis z.2
  have hnone : (ws.map (·.2.isVector)).any id = false := by
    rw [hnumbers.flags]
    simp
  have hlen : (ws.map (·.2.isVector)).length = (zs.map (·.2.isVector)).length := by
    have := congrArg List.length hsnd
    simpa using this
  have hd := hc.direct_of_scalars hs hlen hnone
  refine (applyBy_gives (scalarForm_constructs hd) hp hw hnumbers.numeric).mono fun h p' _ hm => ?_
  rw [← map_flags] at hd hnone
  have hkind : (Lowered.scalarForm p.tree.editor f (ws.map Prod.snd)).kind = .scalar := by
    rw [Lowered.kind_scalarForm hd, Function.resultKind_scalar hf hnone]
  rw [Lowered.apply_of_simple hs, Lowered.numericForm_of_direct hd] at hm
  rw [← hsnd]
  refine ⟨?_, ?_, ?_⟩
  · rw [List.forall_mem_singleton]
    exact hm
  · rw [List.forall_mem_singleton, hkind]
    rfl
  · rw [List.forall_mem_singleton, hkind]
    simp

/-- A call taken apart by components. -/
theorem perComponent_constructs (hc : f.Callable editor (zs.map (·.2.isVector)))
    (hs : f.composed = false) (hf : f.vectorOnly = false)
    (hsplit : (f.splitsIn editor && (zs.map Prod.snd).any Lowered.isVector) = true) :
    Constructs roster editor perComponent f zs := by
  rintro p tag hp rfl ha
  have happly : Lowered.apply p.tree.editor f (zs.map Prod.snd) =
      .perComponent p.tree.editor f (zs.map Prod.snd) := by
    rw [Lowered.apply_of_simple hs, Lowered.numericForm_eq, if_pos hsplit]
  rw [happly]
  refine (axesAll_gives hp ha.args ha.numeric).bind fun split p₀ hp₀ hg₀ hsplits => ?_
  obtain ⟨halong, hsplit⟩ := hsplits
  obtain ⟨ws₀, hfst₀, hsnd₀, hm₀⟩ := halong 0 (by omega)
  obtain ⟨ws₁, hfst₁, hsnd₁, hm₁⟩ := halong 1 (by omega)
  obtain ⟨ws₂, hfst₂, hsnd₂, hm₂⟩ := halong 2 (by omega)
  have along : ∀ {axis : Nat} {ws : List (Operand × Lowered)} {q : Pass}, q.Orderly roster →
      Grows p q → ws.map Prod.snd = (zs.map Prod.snd).map (Lowered.component axis) →
      (∀ w ∈ ws, Means roster q w.1 w.2) →
      Gives roster (applyBy scalarForm f (ws.map Prod.fst)) q fun h p' =>
        Numbers roster p' [(.handle h,
          .scalarForm p.tree.editor f ((zs.map Prod.snd).map (Lowered.component axis)))] := by
    intro axis ws q hq hg hsnd hm
    rw [← hg.editor]
    exact component_gives hq (by rw [hg.editor]; exact hc) hs hf ha.numeric hsnd hm
  have h₀ := along hp₀ hg₀ hsnd₀ hm₀
  rw [hfst₀] at h₀
  refine h₀.bind fun x p₁ hp₁ hg₁ hx => ?_
  have h₁ := along hp₁ (hg₀.trans hg₁) hsnd₁ fun w hw => (hm₁ w hw).grows hp₀ hg₁
  rw [hfst₁] at h₁
  refine h₁.bind fun y p₂ hp₂ hg₂ hy => ?_
  have h₂ := along hp₂ ((hg₀.trans hg₁).trans hg₂) hsnd₂
    fun w hw => (hm₂ w hw).grows hp₀ (hg₁.trans hg₂)
  rw [hfst₂] at h₂
  refine h₂.bind fun z p₃ hp₃ hg₃ hz => ?_
  refine (combine_gives hp₃ (hx.grows hp₁ (hg₂.trans hg₃)) (hy.grows hp₂ hg₃) hz).bind
    fun combined p₄ hp₄ hg₄ hm => ?_
  have hlabel : (if (zs.map Prod.fst).tail.any (·.isVector) then "Vec Parallel FloatMath"
      else "EntryWise FloatMath") ∈ Tree.frameLabels := by split <;> decide
  have hmembers : ∀ m ∈ dedupAdjacent (split.2 ++ [x.node, y.node, z.node, combined.node]),
      p₄.Settled m := by
    intro m hmem
    rcases List.mem_append.mp (mem_of_mem_dedupAdjacent hmem) with hmem | hmem
    · exact (((hg₁.trans hg₂).trans hg₃).trans hg₄).settled (hsplit m hmem)
    · simp only [List.mem_cons, List.not_mem_nil, or_false] at hmem
      rcases hmem with rfl | rfl | rfl | rfl
      · exact ((hg₂.trans hg₃).trans hg₄).settled (hx.settled hp₁)
      · exact (hg₃.trans hg₄).settled (hy.settled hp₂)
      · exact hg₄.settled (hz.settled hp₃)
      · exact hm.settled hp₄
  refine (frame_gives hp₄ tag hlabel hmembers).bind fun _ p₅ hp₅ hg₅ _ => ?_
  exact .pure hp₅ (hm.grows hp₄ hg₅)

theorem vectorOnly_of_splitsIn (h : f.splitsIn editor = true) : f.vectorOnly = false := by
  cases f <;> first | rfl | cases h

/-- The third layer. -/
theorem numericForm_constructs (hc : f.Callable editor (zs.map (·.2.isVector)))
    (hs : f.composed = false) : Constructs roster editor numericForm f zs := by
  rintro p tag hp rfl ha
  have hany : (zs.map Prod.fst).any Operand.isVector = (zs.map Prod.snd).any Lowered.isVector := by
    rw [List.any_map, List.any_map, Bool.eq_iff_iff, List.any_eq_true, List.any_eq_true]
    exact exists_congr fun z => and_congr_right fun hz => by
      simp only [Function.comp_apply, (ha.args z hz).isVector_eq]
  have hrun : numericForm f tag (zs.map Prod.fst) p =
      if f.splitsIn p.tree.editor && (zs.map Prod.snd).any Lowered.isVector
      then perComponent f tag (zs.map Prod.fst) p else scalarForm f tag (zs.map Prod.fst) p := by
    rw [← hany]
    unfold numericForm
    rw [bind_of_ok getTree_run]
    unfold isSplit
    split <;> rfl
  cases hsplit : f.splitsIn p.tree.editor && (zs.map Prod.snd).any Lowered.isVector with
  | true =>
    obtain ⟨h, p', hper, hgives⟩ := perComponent_constructs hc hs
      (vectorOnly_of_splitsIn (Bool.and_eq_true_iff.mp hsplit).1) hsplit p tag hp rfl ha
    exact ⟨h, p', by rw [hrun, if_pos hsplit, hper], hgives⟩
  | false =>
    have hd : f.Direct p.tree.editor (zs.map (·.2.isVector)) := by
      refine hc.direct hs ?_
      rw [← map_flags, Lowered.any_flags]
      exact hsplit
    obtain ⟨h, p', hscalar, hgives⟩ := scalarForm_constructs hd p tag hp rfl ha
    exact ⟨h, p', by rw [hrun, if_neg (by rw [hsplit]; simp), hscalar], hgives⟩

/-- A part of a composed call: a function that takes vectors everywhere. -/
theorem part_gives (zs : List (Operand × Lowered))
    (hf : f = .div ∨ f = .pow ∨ f = .sub ∨ f = .floor) (hp : p.Orderly roster)
    (ha : f.signature.fault? zs.length = none) (hz : ∀ z ∈ zs, Means roster p z.1 z.2)
    (hn : ∀ z ∈ zs, z.2.kind.isNumeric = true) :
    Gives roster (applyBy numericForm f (zs.map Prod.fst)) p fun h p' =>
      Means roster p' (.handle h) (.numericForm p.tree.editor f (zs.map Prod.snd)) ∧
      (Lowered.numericForm p.tree.editor f (zs.map Prod.snd)).kind.isNumeric = true := by
  have hs : f.composed = false := by rcases hf with rfl | rfl | rfl | rfl <;> rfl
  have hc : f.Callable p.tree.editor (zs.map (·.2.isVector)) := by
    rw [← List.length_map (f := (·.2.isVector))] at ha
    refine Function.callable_of_free ?_ ha ?_ ?_ <;> rcases hf with rfl | rfl | rfl | rfl <;> rfl
  refine (applyBy_gives (numericForm_constructs hc hs) hp hz hn).mono fun h p' _ hm => ?_
  rw [Lowered.apply_of_simple hs] at hm
  rw [← map_flags] at hc
  exact ⟨hm, by rw [Lowered.kind_numericForm hc hs]; exact Function.isNumeric_resultKind _ _⟩

theorem nroot_gives {a n : Operand × Lowered} (hp : p.Orderly roster)
    (hz : ∀ z ∈ [a, n], Means roster p z.1 z.2) (hn : ∀ z ∈ [a, n], z.2.kind.isNumeric = true) :
    Gives roster (construct .nroot tag [a.1, n.1]) p fun h p' =>
      Means roster p' (.handle h) (.apply p.tree.editor .nroot [a.2, n.2]) := by
  simp only [List.forall_mem_cons] at hz hn
  have hexponent := part_gives [(.scalar 1, .number 1), n] (.inl rfl) hp rfl
    (by simpa using ⟨.number, hz.2.1⟩) (by simpa using ⟨rfl, hn.2.1⟩)
  refine hexponent.bind fun exponent p₁ hp₁ hg₁ he => ?_
  have hroot := part_gives [a, (.handle exponent, _)] (.inr (.inl rfl)) hp₁ rfl
    (by simpa using ⟨hz.1.grows hp hg₁, he.1⟩) (by simpa using ⟨hn.1, he.2⟩)
  rw [hg₁.editor] at hroot
  refine hroot.bind fun root p₂ hp₂ hg₂ hr => ?_
  have hmembers : ∀ m ∈ [exponent.node, root.node], p₂.Settled m := by
    simpa using ⟨hg₂.settled (he.1.settled hp₁), hr.1.settled hp₂⟩
  refine (frame_gives hp₂ tag (by decide) hmembers).bind fun _ p₃ hp₃ hg₃ _ => ?_
  exact .pure hp₃ (hr.1.grows hp₂ hg₃)

theorem neg_gives {a : Operand × Lowered} (hp : p.Orderly roster)
    (hz : Means roster p a.1 a.2) (hn : a.2.kind.isNumeric = true) :
    Gives roster (construct .neg tag [a.1]) p fun h p' =>
      Means roster p' (.handle h) (.apply p.tree.editor .neg [a.2]) := by
  have hdifference := part_gives [(.scalar 0, .number 0), a] (.inr (.inr (.inl rfl))) hp rfl
    (by simpa using ⟨.number, hz⟩) (by simpa using ⟨rfl, hn⟩)
  refine hdifference.bind fun negated p₁ hp₁ _ hm => ?_
  refine (frame_gives hp₁ tag (by decide) (List.forall_mem_singleton.mpr (hm.1.settled hp₁))).bind
    fun _ p₂ hp₂ hg₂ _ => ?_
  exact .pure hp₂ (hm.1.grows hp₁ hg₂)

theorem floordiv_gives (hp : p.Orderly roster)
    (ha : Function.floordiv.signature.fault? zs.length = none)
    (hz : ∀ z ∈ zs, Means roster p z.1 z.2) (hn : ∀ z ∈ zs, z.2.kind.isNumeric = true) :
    Gives roster (construct .floordiv tag (zs.map Prod.fst)) p fun h p' =>
      Means roster p' (.handle h) (.apply p.tree.editor .floordiv (zs.map Prod.snd)) := by
  refine (part_gives zs (.inl rfl) hp ha hz hn).bind fun quotient p₁ hp₁ hg₁ hq => ?_
  have hfloor := part_gives [(.handle quotient, _)] (.inr (.inr (.inr rfl))) hp₁ rfl
    (by simpa using hq.1) (by simpa using hq.2)
  rw [hg₁.editor] at hfloor
  refine hfloor.bind fun floored p₂ hp₂ hg₂ hm => ?_
  have hmembers : ∀ m ∈ [quotient.node, floored.node], p₂.Settled m := by
    simpa using ⟨hg₂.settled (hq.1.settled hp₁), hm.1.settled hp₂⟩
  refine (frame_gives hp₂ tag (by decide) hmembers).bind fun _ p₃ hp₃ hg₃ _ => ?_
  exact .pure hp₃ (hm.1.grows hp₂ hg₃)

/-- Every call that passes the checks can be built. -/
theorem construct_constructs (hc : f.Callable editor (zs.map (·.2.isVector))) :
    Constructs roster editor construct f zs := by
  have harity := hc.arity
  rw [List.length_map] at harity
  cases hs : f.composed with
  | false =>
    have heq : construct f = numericForm f := by
      funext tag args
      cases f <;> first | rfl | cases hs
    intro p tag
    rw [heq]
    exact numericForm_constructs hc hs p tag
  | true =>
    rintro p tag hp rfl ha
    cases f with
    | nroot =>
      obtain ⟨a, n, rfl⟩ := List.length_eq_two.mp (Signature.length_of_fixed harity)
      exact nroot_gives hp ha.args ha.numeric
    | neg =>
      obtain ⟨a, rfl⟩ := List.length_eq_one_iff.mp (Signature.length_of_fixed harity)
      exact neg_gives hp (ha.args a List.mem_cons_self) (ha.numeric a List.mem_cons_self)
    | floordiv => exact floordiv_gives hp harity ha.args ha.numeric
    | _ => cases hs

theorem apply_gives (hp : p.Orderly roster) (hz : ∀ z ∈ zs, Means roster p z.1 z.2)
    (hn : ∀ z ∈ zs, z.2.kind.isNumeric = true)
    (hc : f.Callable p.tree.editor (zs.map (·.2.isVector))) :
    Gives roster (apply f (zs.map Prod.fst)) p fun h p' =>
      Means roster p' (.handle h) (.apply p.tree.editor f (zs.map Prod.snd)) :=
  applyBy_gives (construct_constructs hc) hp hz hn

end Pass

end FormulaGraph
