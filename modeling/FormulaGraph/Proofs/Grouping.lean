import FormulaGraph.Proofs.History

/-!
The frames of a pass. Its operations group the nodes that they have made, and a
node stays with the frame it was put into as long as the frames around them
stay. Those that the pass does not use go at its end: what was in them is let
out, also a node that was grouped with others.
-/

namespace FormulaGraph

open Relation

namespace Tree

variable {t t' : Tree} {x y z frame : NodeId} {ids : List NodeId}

section Outermost

theorem cutOff_of_inside {limit : Nat}
    (h : ∀ y ∈ t.ancestryWithin limit x, (t.parent? y).isSome = true) : t.CutOff limit x := by
  induction limit generalizing x with
  | zero => exact .zero (h x (self_mem_ancestryWithin t 0 x))
  | succ limit ih =>
    obtain ⟨parent, hp⟩ := Option.isSome_iff_exists.mp (h x (self_mem_ancestryWithin t _ x))
    refine .succ hp (ih fun y hy => h y ?_)
    rw [ancestryWithin_of_some hp]
    exact List.mem_cons_of_mem _ hy

/-- Around every node there is a last frame, if not the node itself. -/
theorem Nested.exists_outermost (h : t.Nested) (x : NodeId) :
    ∃ y, ReflTransGen t.InFrame x y ∧ t.parent? y = none := by
  by_contra hno
  refine h.not_cutOff (Nat.le_refl _) x (cutOff_of_inside fun y hy => ?_)
  rw [Option.isSome_iff_ne_none]
  exact fun hnone => hno ⟨y, reaches_of_mem_ancestryWithin hy, hnone⟩

theorem reaches_outermost (hy : ReflTransGen t.InFrame x y) (hnone : t.parent? y = none)
    (hz : ReflTransGen t.InFrame x z) : ReflTransGen t.InFrame z y := by
  have unique : Relator.RightUnique t.InFrame := fun a b c hb hc =>
    Option.some.inj (hb.symm.trans hc)
  rcases ReflTransGen.total_of_right_unique unique hy hz with hyz | hzy
  · rcases hyz.cases_head with rfl | ⟨w, hw, -⟩
    · exact .refl
    · rw [InFrame, hnone] at hw
      cases hw
  · exact hzy

end Outermost

section Without

variable (h : t'.outline = (t.outline.filter (·.id ∉ ids)).map (Outline.without ids))
include h

theorem inFrame_without : t'.InFrame x frame ↔ t.InFrame x frame ∧ x ∉ ids ∧ frame ∉ ids := by
  rw [InFrame, InFrame, parent?_eq, find?_without h, parent?_eq]
  split
  · next hx => simp [hx]
  · next hx =>
    cases t.outline.find? (·.id == x) with
    | none => simp
    | some o => simp [Outline.without, Option.filter_eq_some_iff, hx]

theorem not_contains_without (hx : x ∈ ids) : t'.contains x = false := by
  rw [← Bool.not_eq_true, contains_iff]
  rintro ⟨n, hn⟩
  have hname := name?_eq t' x
  rw [hn, find?_without h, if_pos hx] at hname
  cases hname

theorem Framed.without (hf : t.Framed) : t'.Framed where
  nested := hf.nested.mono fun _ _ hin => ((inFrame_without h).mp hin).1
  inside := by
    intro x f hin
    obtain ⟨hin, -, hout⟩ := (inFrame_without h).mp hin
    obtain ⟨tag, hname⟩ := hf.inside x f hin
    refine ⟨tag, ?_⟩
    rw [name?_eq, find?_without h, if_neg hout, Option.map_map, ← hname, name?_eq]
    rfl

/-- Two nodes that are together stay so unless a frame around one of them goes. -/
theorem together_without (hf : t.Framed) (htogether : t.Together x frame)
    (hx : x ∉ ids) (hframe : frame ∉ ids) : t'.Together x frame ∨
      ∃ y f, t.InFrame y f ∧ f ∈ ids ∧ t'.parent? y = none ∧
        (ReflTransGen t'.InFrame x y ∨ ReflTransGen t'.InFrame frame y) := by
  have reaches : ∀ {a b}, ReflTransGen t'.InFrame a b → ReflTransGen t.InFrame a b := fun hab =>
    ReflTransGen.mono (fun _ _ hin => ((inFrame_without h).mp hin).1) _ _ hab
  have kept : ∀ {a b}, a ∉ ids → ReflTransGen t'.InFrame a b → b ∉ ids := by
    intro a b ha hab
    rcases hab.cases_tail with rfl | ⟨c, -, hc⟩
    · exact ha
    · exact ((inFrame_without h).mp hc).2.2
  obtain ⟨y, hxy, hy⟩ := (hf.without h).nested.exists_outermost x
  obtain ⟨z, hfz, hz⟩ := (hf.without h).nested.exists_outermost frame
  have last : ∀ {a b}, a ∉ ids → ReflTransGen t'.InFrame a b → t'.parent? b = none →
      t.parent? b = none ∨ ∃ f, t.InFrame b f ∧ f ∈ ids := by
    intro a b ha hab hb
    cases hp : t.parent? b with
    | none => exact .inl rfl
    | some f =>
      refine .inr ⟨f, hp, ?_⟩
      by_contra hout
      have hin := (inFrame_without h).mpr ⟨hp, kept ha hab, hout⟩
      rw [InFrame, hb] at hin
      cases hin
  rcases last hx hxy hy with hy' | ⟨f, hin, hgone⟩
  · rcases last hframe hfz hz with hz' | ⟨f, hin, hgone⟩
    · -- the frames that were around both are still there
      obtain ⟨w, hxw, hfw⟩ := htogether
      have hwy := reaches_outermost (reaches hxy) hy' hxw.to_reflTransGen
      have hwz := reaches_outermost (reaches hfz) hz' hfw
      have hyz : y = z := by
        rcases (reaches_outermost hwz hz' hwy).cases_head with heq | ⟨v, hv, -⟩
        · exact heq
        · rw [InFrame, hy'] at hv
          cases hv
      subst hyz
      refine .inl ⟨y, ?_, hfz⟩
      rcases reflTransGen_iff_eq_or_transGen.mp hxy with rfl | hxy
      · obtain ⟨v, hv, -⟩ := TransGen.head'_iff.mp hxw
        rw [InFrame, hy'] at hv
        cases hv
      · exact hxy
    · exact .inr ⟨z, f, hin, hgone, hz, .inr hfz⟩
  · exact .inr ⟨y, f, hin, hgone, hy, .inl hxy⟩

end Without

end Tree

namespace Pass

variable {p : Pass} {t : Tree} {inputs : Inputs} {unknowns : List String} {term : Term}
  {options : Options} {r : Except Fault Report}

theorem framed_redrawn {t' : Tree} (h : t.Framed) (hs : t.Sane)
    (hr : Redrawn (t.setActive (some .groupInput)) t') : t'.Framed :=
  (Tree.Gathers.of_outline (F := fun _ => True) h (hr.outline (hs.setActive _))).framed

/-- A pass leaves frames that are nested, whatever becomes of it. -/
theorem Staged.framed (h : Staged t unknowns term options r p) (ht : t.Tidy) (hf : t.Framed) :
    p.tree.Framed := by
  cases h with
  | undeclared _ redrawn => exact framed_redrawn hf ht.sane redrawn
  | unfinished _ opened _ adds =>
    exact (adds.gathers (framed_redrawn hf ht.sane opened.redrawn)).framed
  | done _ opened _ _ adds concludes =>
    exact (adds.gathers (framed_redrawn hf ht.sane opened.redrawn)).framed.without
      concludes.finished.outline

end Pass

namespace Tree

variable {t t' : Tree} {text : String} {options : Options}

theorem framed_empty (editor : Editor) : (empty editor).Framed := by
  have hno : ∀ x f, ¬(empty editor).InFrame x f := by
    intro x f hin
    obtain ⟨n, hn, hp⟩ := inFrame_iff.mp hin
    have free : ∀ n ∈ (empty editor).nodes, n.parent = none :=
      List.forall_mem_cons.mpr ⟨rfl, List.forall_mem_singleton.mpr rfl⟩
    rw [free n (mem_of_node? hn)] at hp
    cases hp
  exact ⟨fun x hx => by obtain ⟨y, hy, -⟩ := TransGen.head'_iff.mp hx; exact hno x y hy,
    fun x f hin => absurd hin (hno x f)⟩

theorem Compiled.framed (h : Compiled t) : t.Framed := by
  induction h with
  | empty editor => exact framed_empty editor
  | @compile t h text options ih =>
    rcases compile_staged h.tidy text options with ⟨fault, hrun⟩ | ⟨_, _, r, p, -, -, hrun, hs⟩
    · rw [hrun]
      exact ih
    · rw [hrun]
      exact hs.framed h.tidy ih

/-- After any history of compiling, a call that succeeds leaves the nodes that it
has grouped in their frame, or in a frame that this one is in. Otherwise one of
them is, with all that it is still in, outside of a frame that has been removed. -/
theorem compile_gathers {report : Report} (h : Compiled t)
    (hc : compile text options t = (.ok report, t')) :
    ∃ plain term p, Typed.read text options = .ok (plain, term) ∧
      Pass.synthesis plain.unknowns term options (Pass.start t) = (.ok report, p) ∧ p.tree = t' ∧
      ∀ g ∈ p.groups, ∀ m ∈ g.2, t'.Together m g.1 ∨
        ∃ x f, t.InFrame x f ∧ t'.contains f = false ∧ t'.parent? x = none ∧
          (ReflTransGen t'.InFrame m x ∨ ReflTransGen t'.InFrame g.1 x) := by
  rcases compile_staged h.tidy text options with
    ⟨fault, hrun⟩ | ⟨plain, term, r, p, hread, hpass, hrun, hs⟩
  · cases hc.symm.trans hrun
  · cases hc.symm.trans hrun
    refine ⟨plain, term, p, hread, hpass, rfl, fun g hg m hm => ?_⟩
    cases hs with
    | @done _ inputs w p₁ p₂ _ opens opened evaluates orderly adds concludes =>
      have hframed := Pass.framed_redrawn h.framed h.tidy.sane opened.redrawn
      have hnone : p₁.groups = [] := by rw [opened.start]; rfl
      rw [concludes.groups] at hg
      rcases adds.groups hframed g hg with hg | ⟨hused, hmembers⟩
      · rw [hnone] at hg
        cases hg
      · obtain ⟨hsettled, htogether⟩ := hmembers m hm
        have kept : ∀ x, p₂.Kept x → x ∉ Pass.stale p₂ := fun _ =>
          Pass.not_stale_of_kept orderly.sound
        have hgathers := adds.gathers hframed
        refine (together_without concludes.finished.outline hgathers.framed htogether
          (kept m (Pass.kept_of_settled orderly.sound hsettled))
          (kept g.1 (.inr hused))).imp_right ?_
        rintro ⟨x, f, hin, hgone, hx, hout⟩
        refine ⟨x, f, ?_, not_contains_without concludes.finished.outline hgone, hx, hout⟩
        rcases hgathers.moves x f hin with hin | hu
        · rwa [InFrame,
            parent?_of_outline (opened.redrawn.outline (h.tidy.sane.setActive _))] at hin
        · exact absurd hgone (kept f (.inr hu))

theorem compile_gathers_regrouped :
    ∃ t report t', t = (compile "-a" {} (empty .geometry)).2 ∧
      compile "-(a//b)" {} t = (.ok report, t') ∧
      ∃ plain term p, Typed.read "-(a//b)" {} = .ok (plain, term) ∧
        Pass.synthesis plain.unknowns term {} (Pass.start t) = (.ok report, p) ∧ p.tree = t' ∧
        ∀ g ∈ p.groups, ∀ m ∈ g.2, t'.Together m g.1 ∨
          ∃ x f, t.InFrame x f ∧ t'.contains f = false ∧ t'.parent? x = none ∧
            (ReflTransGen t'.InFrame m x ∨ ReflTransGen t'.InFrame g.1 x) := by
  have hr : (compile "-(a//b)" {} (compile "-a" {} (empty .geometry)).2).1 =
      .ok ⟨5, 5, 2, .scalar⟩ := by decide +kernel
  have h := Run.eq_of_fst hr
  exact ⟨_, _, _, rfl, h, compile_gathers ((Compiled.empty .geometry).compile "-a" {}) h⟩

def leastOfFour : Term := .call .min [.name "a", .name "b", .name "c", .name "d"]

/-- A node that an earlier pass has grouped is let out when the frame from then
goes, and is not with the others. In a new tree they are all in the frame. -/
theorem compile_scatters :
    ∃ t report p, t = (compile "min(a,b,c)" {} (empty .geometry)).2 ∧
      Pass.synthesis ["a", "b", "c", "d"] leastOfFour {} (Pass.start t) = (.ok report, p) ∧
      compile "min(a,b,c,d)" {} t = (.ok report, p.tree) ∧
      (∃ g ∈ p.groups, ∃ m ∈ g.2, ¬p.tree.Together m g.1) ∧
      ∃ report₀ p₀, Pass.synthesis ["a", "b", "c", "d"] leastOfFour {}
          (Pass.start (empty .geometry)) = (.ok report₀, p₀) ∧
        compile "min(a,b,c,d)" {} (empty .geometry) = (.ok report₀, p₀.tree) ∧
        p₀.groups ≠ [] ∧ ∀ g ∈ p₀.groups, ∀ m ∈ g.2, p₀.tree.Together m g.1 := by
  let t := (compile "min(a,b,c)" {} (empty .geometry)).2
  let p := (Pass.synthesis ["a", "b", "c", "d"] leastOfFour {} (Pass.start t)).2
  let p₀ := (Pass.synthesis ["a", "b", "c", "d"] leastOfFour {} (Pass.start (empty .geometry))).2
  have hpass : (Pass.synthesis ["a", "b", "c", "d"] leastOfFour {} (Pass.start t)).1 =
        .ok ⟨4, 3, 2, .scalar⟩ ∧
      (compile "min(a,b,c,d)" {} t).1 = .ok ⟨4, 3, 2, .scalar⟩ ∧
      (compile "min(a,b,c,d)" {} t).2 = p.tree ∧
      p.groups = [(⟨37⟩, [⟨5⟩, ⟨23⟩, ⟨30⟩])] ∧ p.tree.parent? ⟨5⟩ = none := by decide +kernel
  have hpass₀ : (Pass.synthesis ["a", "b", "c", "d"] leastOfFour {}
        (Pass.start (empty .geometry))).1 = .ok ⟨4, 4, 0, .scalar⟩ ∧
      (compile "min(a,b,c,d)" {} (empty .geometry)).1 = .ok ⟨4, 4, 0, .scalar⟩ ∧
      (compile "min(a,b,c,d)" {} (empty .geometry)).2 = p₀.tree ∧
      p₀.groups ≠ [] ∧ ∀ g ∈ p₀.groups, ∀ m ∈ g.2, p₀.tree.parent? m = some g.1 := by
    decide +kernel
  obtain ⟨hr, hc, htree, hgroups, hout⟩ := hpass
  obtain ⟨hr₀, hc₀, htree₀, hsome, hin⟩ := hpass₀
  have hcompile : compile "min(a,b,c,d)" {} t = (.ok ⟨4, 3, 2, .scalar⟩, p.tree) :=
    (Run.eq_of_fst hc).trans (congrArg (Prod.mk _) htree)
  have hcompile₀ : compile "min(a,b,c,d)" {} (empty .geometry) =
      (.ok ⟨4, 4, 0, .scalar⟩, p₀.tree) :=
    (Run.eq_of_fst hc₀).trans (congrArg (Prod.mk _) htree₀)
  refine ⟨t, _, p, rfl, Run.eq_of_fst hr, hcompile, ⟨(⟨37⟩, [⟨5⟩, ⟨23⟩, ⟨30⟩]), ?_, ⟨5⟩,
    List.mem_cons_self, ?_⟩, _, p₀, Run.eq_of_fst hr₀, hcompile₀, hsome,
    fun g hg m hm => ⟨g.1, .single (hin g hg m hm), .refl⟩⟩
  · rw [hgroups]
    exact List.mem_cons_self
  rintro ⟨z, hz, -⟩
  obtain ⟨y, hy, -⟩ := TransGen.head'_iff.mp hz
  rw [InFrame, hout] at hy
  cases hy

end Tree

end FormulaGraph
