import FormulaGraph.Proofs.Pass.CallKinds
import FormulaGraph.Proofs.Pass.Builds
import FormulaGraph.Proofs.Pass.Relay

/-!
Calls on single numbers, and calls that one node computes. A construction is
asked for a call under a new tag only; a tag that has a result gives it again,
and the result stands for the same call.
-/

namespace FormulaGraph.Pass

open Run Numeric

variable {h : Handle} {x : Lowered} {roster : List Handle} {editor : Editor} {p p' : Pass}
  {tag : String} {f : Function} {zs : List (Operand × Lowered)} {construct : Construction}

/-- A construction gives a handle that stands for a call. -/
def Constructs (roster : List Handle) (editor : Editor) (construct : Construction) (f : Function)
    (zs : List (Operand × Lowered)) : Prop :=
  ∀ p tag, p.Orderly roster → p.tree.editor = editor → Asked roster p tag f zs →
    Gives roster (construct f tag (zs.map Prod.fst)) p fun h p' =>
      Means roster p' (.handle h) (.apply editor f (zs.map Prod.snd))

theorem Means.known (hm : Means roster p (.handle h) x) : Known roster p h := by
  cases hm with
  | carried known => exact known

theorem Means.settled (hm : Means roster p (.handle h) x) (hp : p.Orderly roster) :
    p.Settled h.node := hm.known.settled hp

/-- What is built under a tag of its own is built at most once. -/
theorem tagged_gives (f : Function) (zs : List (Operand × Lowered)) (make : String → PassM Handle)
    (hp : p.Orderly roster)
    (hz : ∀ z ∈ zs, Means roster p z.1 z.2) (hn : ∀ z ∈ zs, z.2.kind.isNumeric = true)
    (again : ∀ q t h l, q.results.lookup t = some (h :: l) → make t q = (.ok h, q))
    (fresh : ∀ q t, q.Orderly roster → q.tree.editor = p.tree.editor → Asked roster q t f zs →
      Gives roster (make t) q fun h p' =>
        Means roster p' (.handle h) (.apply p.tree.editor f (zs.map Prod.snd))) :
    Gives roster (Pass.tag f.name (zs.map Prod.fst) >>= make) p fun h p' =>
      Means roster p' (.handle h) (.apply p.tree.editor f (zs.map Prod.snd)) := by
  have hle := literals_le_markers p.literals (zs.map Prod.fst)
  have hq := hp.withLiterals hle
  have hextends := Extends.withLiterals hle
  have hgrows := hextends.toGrows
  rcases lookup_results hp.sound
    (Tag.operation f.name (markers p.literals (zs.map Prod.fst)).1) with hnew | ⟨h, l, hr, hmem⟩
  · have hasked : Asked roster { p with literals := (markers p.literals (zs.map Prod.fst)).2 }
        (Tag.operation f.name (markers p.literals (zs.map Prod.fst)).1) f zs :=
      ⟨⟨p.literals, rfl, Nat.le_refl _⟩, hnew, fun z hz' => (hz z hz').grows hp hgrows, hn⟩
    obtain ⟨h, p', hrun, hp', hg, hm⟩ := fresh _ _ hq rfl hasked
    exact ⟨h, p', by rw [bind_of_ok (tag_run _ _), hrun], hp', hextends.trans hg, hm⟩
  · exact ⟨h, _, by rw [bind_of_ok (tag_run _ _)]; exact again _ _ h l hr, hq, hextends,
      (hp.means_of_call hz hmem).grows hp hgrows⟩

theorem applyBy_gives (hc : Constructs roster p.tree.editor construct f zs) (hp : p.Orderly roster)
    (hz : ∀ z ∈ zs, Means roster p z.1 z.2) (hn : ∀ z ∈ zs, z.2.kind.isNumeric = true) :
    Gives roster (applyBy construct f (zs.map Prod.fst)) p fun h p' =>
      Means roster p' (.handle h) (.apply p.tree.editor f (zs.map Prod.snd)) := by
  refine tagged_gives f zs _ hp hz hn (fun q t h l hr => ?_) fun q t hq he ha => ?_
  · rw [bind_of_ok (result?_run t), hr]
    rfl
  · obtain ⟨h, p', hrun, hp', hg, hm⟩ := hc q t hq he ha
    obtain ⟨k, htag, hle⟩ := ha.name
    have hexplained : Explained roster p' t [h] := by
      refine .call htag (Nat.le_trans hle hg.literals)
        (fun z hz => (ha.args z hz).grows hq hg.toGrows) ?_
      rw [hg.editor, he]
      exact hm
    refine ⟨h, _, ?_, hp'.keep ha.isCall hexplained hm.known, hg.trans (.keep t h),
      hm.grows hp' (.keep t h)⟩
    rw [bind_of_ok (result?_run t), ha.isNew]
    dsimp only
    rw [bind_of_ok hrun]
    rfl

theorem native_operands (hz : ∀ z ∈ zs, Means roster p z.1 z.2) {b : Blueprint (Operand × Lowered)}
    (hb : Blueprint.native (·.2.isVector) f zs = some b) :
    Blueprint.native Operand.isVector f (zs.map Prod.fst) = some (b.map Prod.fst) := by
  have hflags : ∀ z ∈ zs, (Operand.isVector ∘ Prod.fst) z = z.2.isVector :=
    fun z hz' => (hz z hz').isVector_eq
  rw [Blueprint.native_map, Blueprint.native_congr hflags, hb]
  rfl

theorem single_of_native {b : Blueprint (Operand × Lowered)}
    (hb : Blueprint.native (·.2.isVector) f zs = some b) :
    Lowered.single f (zs.map Prod.snd) = (b.map Prod.snd).lower := by
  have : Blueprint.native Lowered.isVector f (zs.map Prod.snd) = some (b.map Prod.snd) := by
    rw [Blueprint.native_map]
    exact congrArg (Option.map _) hb
  rw [Lowered.single, this]
  rfl

theorem buildBy_gives (hp : p.Orderly roster) (ha : Asked roster p tag f zs)
    (hd : f.Nodal p.tree.editor (zs.map (·.2.isVector)))
    (happly : Lowered.apply p.tree.editor f (zs.map Prod.snd) = .single f (zs.map Prod.snd)) :
    Gives roster (buildBy f tag (Blueprint.native Operand.isVector f (zs.map Prod.fst))) p
      fun h p' => Means roster p' (.handle h) (.apply p.tree.editor f (zs.map Prod.snd)) := by
  obtain ⟨b, hb, hsuits⟩ := Blueprint.exists_native hd
  rw [native_operands ha.args hb]
  exact build_gives hp ha hb hsuits (happly.trans (single_of_native hb))

theorem map_flags (zs : List (Operand × Lowered)) :
    (zs.map Prod.snd).map Lowered.isVector = zs.map (·.2.isVector) := List.map_map

theorem native_constructs (hd : f.Nodal editor (zs.map (·.2.isVector)))
    (hv : f.signature.variadic = false) : Constructs roster editor native f zs := by
  rintro p tag hp rfl ha
  have happly : Lowered.apply p.tree.editor f (zs.map Prod.snd) = .single f (zs.map Prod.snd) := by
    have hdirect := hd.toDirect
    rw [← map_flags] at hdirect
    rw [Lowered.apply_of_simple hd.simple, Lowered.numericForm_of_direct hdirect,
      Lowered.scalarForm_of_not ?_, Lowered.native_of_variadic hv]
    refine Bool.eq_false_iff.mpr fun he => ?_
    obtain ⟨hf, ho⟩ := Lowered.emulates_iff.mp he
    rw [hd.clamps hf] at ho
    cases ho
  rw [native_eq_build hv]
  exact buildBy_gives hp ha hd happly

theorem mathNode_eq_native (hf : f = .min ∨ f = .max) {args : List Operand}
    (hv : args.any Operand.isVector = false) :
    mathNode f tag args = buildBy f tag (Blueprint.native Operand.isVector f args) := by
  rw [mathNode_eq, Blueprint.native_plain (by rcases hf with rfl | rfl <;> rfl),
    Blueprint.plain, hv]
  rcases hf with rfl | rfl <;> rfl

structure Numbers (roster : List Handle) (p : Pass) (zs : List (Operand × Lowered)) : Prop where
  means : ∀ z ∈ zs, Means roster p z.1 z.2
  numeric : ∀ z ∈ zs, z.2.kind.isNumeric = true
  scalar : ∀ z ∈ zs, z.2.kind ≠ .vector

namespace Numbers

theorem grows (h : Numbers roster p zs) (hp : p.Orderly roster) (hg : Grows p p') :
    Numbers roster p' zs :=
  ⟨fun z hz => (h.means z hz).grows hp hg, h.numeric, h.scalar⟩

theorem settled (hn : Numbers roster p [(.handle h, x)]) (hp : p.Orderly roster) :
    p.Settled h.node :=
  (hn.means _ List.mem_cons_self).settled hp

theorem flags (h : Numbers roster p zs) : zs.map (·.2.isVector) = zs.map fun _ => false := by
  refine List.map_congr_left fun z hz => ?_
  simp [Lowered.isVector, h.scalar z hz]

theorem not_any (h : Numbers roster p zs) : (zs.map Prod.fst).any Operand.isVector = false := by
  rw [List.any_map, List.any_eq_false]
  intro z hz
  simp [(h.means z hz).isVector_eq, Lowered.isVector, h.scalar z hz]

end Numbers

theorem mathNode_gives (hf : f = .min ∨ f = .max) {a b : Operand × Lowered}
    (hp : p.Orderly roster) (hn : Numbers roster p [a, b]) (ha : Asked roster p tag f [a, b]) :
    Gives roster (mathNode f tag [a.1, b.1]) p fun h p' =>
      Means roster p' (.handle h) (.apply p.tree.editor f [a.2, b.2]) := by
  have hnone : [a.1, b.1].any Operand.isVector = false := hn.not_any
  rw [mathNode_eq_native hf hnone]
  refine buildBy_gives hp ha ?_ (by rcases hf with rfl | rfl <;> rfl)
  rw [hn.flags]
  exact Function.nodal_pair hf _

theorem step_gives (hf : f = .min ∨ f = .max) {a b : Operand × Lowered} (hp : p.Orderly roster)
    (hn : Numbers roster p [a, b]) :
    Gives roster (Pass.tag f.name [a.1, b.1] >>= fun tag => mathNode f tag [a.1, b.1]) p fun h p' =>
      Means roster p' (.handle h) (.single f [a.2, b.2]) := by
  have hsteps := tagged_gives f [a, b] (fun tag => mathNode f tag [a.1, b.1]) hp hn.means
    hn.numeric (fun q t h l hr => mathNode_of_known hf hr) fun q t hq he ha => by
      rw [← he]
      exact mathNode_gives hf hq ⟨ha.args, ha.numeric, hn.scalar⟩ ha
  refine hsteps.mono fun h p' _ hm => ?_
  rcases hf with rfl | rfl <;> exact hm

/-- The steps of a chain. There is at least one, so the last operand is a handle. -/
theorem chainSteps_gives (hf : f = .min ∨ f = .max) {a b : Operand × Lowered}
    {rest : List (Operand × Lowered)} (hp : p.Orderly roster)
    (hn : Numbers roster p (a :: b :: rest)) :
    Gives roster (chainSteps f a.1 ((b :: rest).map Prod.fst)) p fun r p' => (∃ h, r.1 = .handle h ∧
      Means roster p' (.handle h) (.chain f ((a :: b :: rest).map Prod.snd))) ∧
      ∀ m ∈ r.2, p'.Settled m := by
  induction rest generalizing p a b with
  | nil =>
    have hstep := step_gives hf hp hn
    rw [List.map_cons, chainSteps, ← bind_assoc]
    exact hstep.bind fun h p' hp' _ hm =>
      .pure hp' ⟨⟨h, rfl, hm⟩, List.forall_mem_singleton.mpr (hm.settled hp')⟩
  | cons c rest ih =>
    have hpair : Numbers roster p [a, b] :=
      ⟨fun z hz => hn.means z (by grind), fun z hz => hn.numeric z (by grind),
        fun z hz => hn.scalar z (by grind)⟩
    have hstep := step_gives hf hp hpair
    have hkind := Lowered.kind_pair hf (hn.scalar a (by simp)) (hn.scalar b (by simp))
    rw [List.map_cons, chainSteps, ← bind_assoc]
    refine hstep.bind fun h p' hp' hg hm => ?_
    have hrest := hn.grows hp hg
    have hn' : Numbers roster p' ((.handle h, .single f [a.2, b.2]) :: c :: rest) := by
      refine ⟨?_, ?_, ?_⟩
      · exact List.forall_mem_cons.mpr ⟨hm, fun z hz => hrest.means z (by grind)⟩
      · exact List.forall_mem_cons.mpr ⟨by rw [hkind]; rfl, fun z hz => hrest.numeric z (by grind)⟩
      · exact List.forall_mem_cons.mpr ⟨by rw [hkind]; simp, fun z hz => hrest.scalar z (by grind)⟩
    exact (ih hp' hn').bind fun r p'' hp'' hg' hr => .pure hp''
      ⟨hr.1, List.forall_mem_cons.mpr ⟨hg'.settled (hm.settled hp'), hr.2⟩⟩

/-- A minimum or maximum of numbers. -/
theorem chain_constructs (hf : f = .min ∨ f = .max) (hd : f.Direct editor (zs.map (·.2.isVector))) :
    Constructs roster editor native f zs := by
  rintro p tag hp rfl ha
  have hnone := hd.no_vectors (by rcases hf with rfl | rfl <;> rfl)
  rw [← map_flags] at hnone
  have hn : Numbers roster p zs :=
    ⟨ha.args, ha.numeric, fun z hz => Lowered.ne_vector_of_flags hnone z.2 (List.mem_map_of_mem hz)⟩
  have hchain : ∀ args : List Operand, native f tag args = chain f tag args := by
    intro args
    rcases hf with rfl | rfl <;> rfl
  have happly : ∀ xs : List Lowered,
      Lowered.apply p.tree.editor f xs = .chain f xs := by
    intro xs
    rcases hf with rfl | rfl <;> rfl
  have harity := hd.arity
  rw [List.length_map] at harity
  rw [hchain]
  match zs, harity with
  | [], harity | [_], harity => rcases hf with rfl | rfl <;> cases harity
  | [a, b], _ => exact mathNode_gives hf hp hn ha
  | a :: b :: c :: rest, _ =>
    rw [happly]
    refine (chainSteps_gives hf hp hn).bind fun r p' hp' _ hr => ?_
    obtain ⟨last, nodes⟩ := r
    obtain ⟨⟨h, rfl, hm⟩, hnodes⟩ := hr
    refine (frame_gives hp' tag (by decide) hnodes).bind fun _ p'' hp'' hg _ => ?_
    exact .pure hp'' (hm.grows hp' hg)

variable {z : Operand × Lowered}

theorem numbers_cons : Numbers roster p (z :: zs) ↔ Numbers roster p [z] ∧ Numbers roster p zs := by
  constructor
  · rintro ⟨hm, hn, hs⟩
    simp only [List.forall_mem_cons] at hm hn hs
    exact ⟨⟨by simpa using hm.1, by simpa using hn.1, by simpa using hs.1⟩, hm.2, hn.2, hs.2⟩
  · rintro ⟨⟨hm, hn, hs⟩, hm', hn', hs'⟩
    simp only [List.mem_singleton, forall_eq] at hm hn hs
    exact ⟨List.forall_mem_cons.mpr ⟨hm, hm'⟩, List.forall_mem_cons.mpr ⟨hn, hn'⟩,
      List.forall_mem_cons.mpr ⟨hs, hs'⟩⟩

theorem Numbers.pair {a b : Operand × Lowered} (ha : Numbers roster p [a])
    (hb : Numbers roster p [b]) : Numbers roster p [a, b] :=
  numbers_cons.mpr ⟨ha, hb⟩

/-- A minimum or maximum of two numbers, as part of a clamp. -/
theorem bound_gives (hf : f = .min ∨ f = .max) {a b : Operand × Lowered} (hp : p.Orderly roster)
    (ha : Numbers roster p [a]) (hb : Numbers roster p [b]) :
    Gives roster (applyBy native f [a.1, b.1]) p fun h p' =>
      Numbers roster p' [(.handle h, .native f [a.2, b.2])] := by
  have hn := ha.pair hb
  have hd : f.Direct p.tree.editor ([a, b].map (·.2.isVector)) := by
    rw [hn.flags]
    exact (Function.nodal_pair hf _).toDirect
  have hkind := Lowered.kind_pair hf (hn.scalar a (by simp)) (hn.scalar b (by simp))
  refine (applyBy_gives (chain_constructs hf hd) hp hn.means hn.numeric).mono fun h p' _ hm => ?_
  have hsingle : Lowered.native f [a.2, b.2] = .single f [a.2, b.2] := by
    rcases hf with rfl | rfl <;> rfl
  have happly : Lowered.apply p.tree.editor f [a.2, b.2] = .native f [a.2, b.2] := by
    rcases hf with rfl | rfl <;> rfl
  refine ⟨?_, ?_, ?_⟩
  · rw [List.forall_mem_singleton, ← happly]
    exact hm
  · rw [List.forall_mem_singleton, hsingle, hkind]
    rfl
  · rw [List.forall_mem_singleton, hsingle, hkind]
    simp

theorem emulatedClamp_gives (f : Function) (tag : String) {v low high : Operand × Lowered}
    (hp : p.Orderly roster)
    (hv : Numbers roster p [v]) (hl : Numbers roster p [low]) (hh : Numbers roster p [high]) :
    Gives roster (emulatedClamp f tag v.1 low.1 high.1) p fun h p' =>
      Means roster p' (.handle h) (.emulatedClamp f v.2 low.2 high.2) := by
  unfold emulatedClamp Lowered.emulatedClamp
  split
  · refine (bound_gives (.inl rfl) hp hl hh).bind fun lower p₁ hp₁ hg₁ hlower => ?_
    refine (bound_gives (.inr rfl) hp₁ (hl.grows hp hg₁) (hh.grows hp hg₁)).bind
      fun upper p₂ hp₂ hg₂ hupper => ?_
    refine (bound_gives (.inl rfl) hp₂ (hv.grows hp (hg₁.trans hg₂)) hupper).bind
      fun capped p₃ hp₃ hg₃ hcapped => ?_
    refine (bound_gives (.inr rfl) hp₃ (hlower.grows hp₁ (hg₂.trans hg₃)) hcapped).bind
      fun result p₄ hp₄ hg₄ hresult => ?_
    have hmembers : ∀ m ∈ [lower.node, upper.node, capped.node, result.node], p₄.Settled m := by
      simpa using ⟨((hg₂.trans hg₃).trans hg₄).settled (hlower.settled hp₁),
        (hg₃.trans hg₄).settled (hupper.settled hp₂), hg₄.settled (hcapped.settled hp₃),
        hresult.settled hp₄⟩
    refine (frame_gives hp₄ tag (by decide) hmembers).bind fun _ p₅ hp₅ hg₅ _ => ?_
    exact .pure hp₅ ((hresult.means _ List.mem_cons_self).grows hp₄ hg₅)
  · refine (bound_gives (.inl rfl) hp hv hh).bind fun capped p₁ hp₁ hg₁ hcapped => ?_
    refine (bound_gives (.inr rfl) hp₁ (hl.grows hp hg₁) hcapped).bind
      fun result p₂ hp₂ hg₂ hresult => ?_
    have hmembers : ∀ m ∈ [capped.node, result.node], p₂.Settled m := by
      simpa using ⟨hg₂.settled (hcapped.settled hp₁), hresult.settled hp₂⟩
    refine (frame_gives hp₂ tag (by decide) hmembers).bind fun _ p₃ hp₃ hg₃ _ => ?_
    exact .pure hp₃ ((hresult.means _ List.mem_cons_self).grows hp₂ hg₃)

theorem getTree_run : getTree p = (.ok p.tree, p) := rfl

theorem scalarForm_run_of_not (h : Lowered.emulates p.tree.editor f = false) (args : List Operand) :
    scalarForm f tag args p = native f tag args p := by
  unfold scalarForm
  rw [bind_of_ok getTree_run]
  cases f with
  | clamp | clampauto =>
    have ho : p.tree.editor.offers .clamp = true := by
      cases ho : p.tree.editor.offers .clamp with
      | true => rfl
      | false =>
        rw [Lowered.emulates_iff.mpr ⟨by simp, ho⟩] at h
        cases h
    cases args with
    | nil => rfl
    | cons v bounds =>
      dsimp only
      rw [if_pos ho]
  | _ => rfl

theorem scalarForm_run_of_emulates (h : Lowered.emulates p.tree.editor f = true) (v : Operand)
    (bounds : List Operand) : scalarForm f tag (v :: bounds) p =
      emulatedClamp f tag v (bounds[0]?.getD (.scalar 0)) (bounds[1]?.getD (.scalar 1)) p := by
  obtain ⟨hf, ho⟩ := Lowered.emulates_iff.mp h
  have ho : ¬p.tree.editor.offers .clamp = true := by simp [ho]
  unfold scalarForm
  rw [bind_of_ok getTree_run]
  rcases hf with rfl | rfl <;> dsimp only <;> rw [if_neg ho]

theorem Numbers.bound (h : Numbers roster p zs) (i : Nat) (x : Numeric.Single) :
    Numbers roster p [zs[i]?.getD (.scalar x, .number x)] := by
  cases hi : zs[i]? with
  | some z =>
    have hz := List.mem_of_getElem? hi
    exact ⟨by simpa using h.means z hz, by simpa using h.numeric z hz, by simpa using h.scalar z hz⟩
  | none => exact ⟨by simpa using .number, by simp [Lowered.kind, Kind.isNumeric],
      by simp [Lowered.kind]⟩

/-- The second layer, on calls that need no other. -/
theorem scalarForm_constructs (hd : f.Direct editor (zs.map (·.2.isVector))) :
    Constructs roster editor scalarForm f zs := by
  rintro p tag hp rfl ha
  cases he : Lowered.emulates p.tree.editor f with
  | false =>
    have hnative : Constructs roster p.tree.editor native f zs := by
      cases hv : f.signature.variadic with
      | true => exact chain_constructs (Function.variadic_iff.mp hv) hd
      | false =>
        refine native_constructs (hd.nodal hv fun hc => ?_) hv
        cases ho : p.tree.editor.offers .clamp with
        | true => rfl
        | false =>
          rw [Lowered.emulates_iff.mpr ⟨hc, ho⟩] at he
          cases he
    obtain ⟨h, p', hrun, hgives⟩ := hnative p tag hp rfl ha
    exact ⟨h, p', (scalarForm_run_of_not he _).trans hrun, hgives⟩
  | true =>
    obtain ⟨hf, -⟩ := Lowered.emulates_iff.mp he
    have hdirect := hd
    rw [← map_flags] at hdirect
    have hnone : ((zs.map Prod.snd).map Lowered.isVector).any id = false := by
      refine Bool.eq_false_iff.mpr fun hv => ?_
      have := (hdirect.whole hv).2
      rcases hf with rfl | rfl <;> cases this
    have hn : Numbers roster p zs := ⟨ha.args, ha.numeric,
      fun z hz => Lowered.ne_vector_of_flags hnone z.2 (List.mem_map_of_mem hz)⟩
    cases zs with
    | nil =>
      have := hd.arity
      rcases hf with rfl | rfl <;> cases this
    | cons v bounds =>
      have hbounds := (numbers_cons.mp hn).2
      obtain ⟨h, p', hrun, hgives⟩ := emulatedClamp_gives f tag hp
        (numbers_cons.mp hn).1 (hbounds.bound 0 0) (hbounds.bound 1 1)
      have getD : ∀ {α : Type} (g : Operand × Lowered → α) (i : Nat) (d : Operand × Lowered),
          (bounds.map g)[i]?.getD (g d) = g (bounds[i]?.getD d) := by
        intro α g i d
        rw [List.getElem?_map, Option.getD_map]
      rw [Lowered.apply_of_simple hd.simple, Lowered.numericForm_of_direct hdirect, List.map_cons,
        List.map_cons, Lowered.scalarForm_of_emulates he]
      refine ⟨h, p', ?_, ?_⟩
      · rw [scalarForm_run_of_emulates he]
        have h₀ := getD Prod.fst 0 (.scalar 0, .number 0)
        have h₁ := getD Prod.fst 1 (.scalar 1, .number 1)
        dsimp only at h₀ h₁
        rw [h₀, h₁]
        exact hrun
      · have h₀ := getD Prod.snd 0 (.scalar 0, .number 0)
        have h₁ := getD Prod.snd 1 (.scalar 1, .number 1)
        dsimp only at h₀ h₁
        rw [h₀, h₁]
        exact hgives

end FormulaGraph.Pass
