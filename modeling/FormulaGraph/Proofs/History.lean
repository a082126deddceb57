import FormulaGraph.Proofs.Pass.Outcome

/-!
What holds after any history of compiling. Trees made by compiling are tidy,
whether the calls succeeded or failed. So a further call succeeds if and only if
checks on the term say so, and the output then reads as the lowered term.
-/

namespace FormulaGraph

open Run

theorem Term.unavailable?_eq_none_iff {t : Term} {editor : Editor} :
    t.unavailable? editor = none ↔ ∀ f ∈ t.calls, f.offeredBy editor = true := by
  simp [unavailable?]

namespace Tree

/-- Trees that compiling has made from an empty one, whatever became of the
single calls. -/
inductive Compiled : Tree → Prop where
  | empty (editor : Editor) : Compiled (empty editor)
  | compile {t : Tree} (h : Compiled t) (text : String) (options : Options) :
      Compiled (compile text options t).2

variable {t t' : Tree} {text : String} {options : Options} {term : Term}

/-- Building a well-made term in a tidy tree. -/
theorem realize_ends (ht : t.Tidy) (hw : term.WellMade) (unknowns : List String)
    (options : Options) : (realize unknowns term options t).2.Tidy ∧
      ((∀ f ∈ term.calls, f.offeredBy t.editor = true) →
        Pass.Ended t unknowns term options (realize unknowns term options t).2
          (realize unknowns term options t).1) ∧
      ∀ f, term.unavailable? t.editor = some f →
        (realize unknowns term options t).1 = .error (.unavailableFunction f t.editor) := by
  rw [realize_run]
  cases hu : term.unavailable? t.editor with
  | some f =>
    refine ⟨ht, fun ho => ?_, fun g hg => ?_⟩
    · rw [Term.unavailable?_eq_none_iff.mpr ho] at hu
      cases hu
    · cases hg
      rfl
  | none =>
    have ho := Term.unavailable?_eq_none_iff.mp hu
    obtain ⟨r, p, hrun, hstaged, hended⟩ := Pass.synthesis_ends ht hw ho unknowns options
    rw [hrun]
    exact ⟨hstaged.tidy ht, fun _ => hended, nofun⟩

/-- A call fails before any edit, or goes through the stages of a pass. -/
theorem compile_staged (ht : t.Tidy) (text : String) (options : Options) :
    (∃ fault, compile text options t = (.error fault, t)) ∨
      ∃ plain term r p, Typed.read text options = .ok (plain, term) ∧
        Pass.synthesis plain.unknowns term options (Pass.start t) = (r, p) ∧
        compile text options t = (r, p.tree) ∧ Pass.Staged t plain.unknowns term options r p := by
  rw [compile_run]
  rcases hread : Typed.read text options with fault | ⟨plain, term⟩
  · exact .inl ⟨_, rfl⟩
  · dsimp only
    rw [realize_run]
    cases hu : term.unavailable? t.editor with
    | some f => exact .inl ⟨_, rfl⟩
    | none =>
      obtain ⟨r, p, hrun, hstaged, -⟩ := Pass.synthesis_ends ht (Typed.wellMade_of_read hread)
        (Term.unavailable?_eq_none_iff.mp hu) plain.unknowns options
      refine .inr ⟨plain, term, r, p, rfl, hrun, ?_, hstaged⟩
      dsimp only
      rw [hrun]

theorem tidy_compile (ht : t.Tidy) (text : String) (options : Options) :
    (compile text options t).2.Tidy := by
  rw [compile_run]
  rcases hread : Typed.read text options with fault | ⟨plain, term⟩
  · exact ht
  · exact (realize_ends ht (Typed.wellMade_of_read hread) plain.unknowns options).1

theorem Compiled.tidy (h : Compiled t) : t.Tidy := by
  induction h with
  | empty editor => exact tidy_empty editor
  | compile _ text options ih => exact tidy_compile ih text options

/-- What a call that succeeds has built, and that its term could be built. -/
theorem compile_built {report : Report} (h : Compiled t)
    (hc : compile text options t = (.ok report, t')) :
    ∃ plain term, Typed.read text options = .ok (plain, term) ∧
      (∀ f ∈ term.calls, f.offeredBy t.editor = true) ∧ (term.kind? options).isSome = true ∧
      ∀ m, t'.ReadsOutput options.outputName m ↔ m = term.meaning t.editor options := by
  rw [compile_run] at hc
  rcases hread : Typed.read text options with fault | ⟨plain, term⟩
  · rw [hread] at hc
    cases hc
  · rw [hread] at hc
    change realize plain.unknowns term options t = _ at hc
    obtain ⟨-, hended, hlacks⟩ :=
      realize_ends h.tidy (Typed.wellMade_of_read hread) plain.unknowns options
    rw [hc] at hended hlacks
    have ho : ∀ f ∈ term.calls, f.offeredBy t.editor = true := by
      refine Term.unavailable?_eq_none_iff.mp ?_
      cases hu : term.unavailable? t.editor with
      | none => rfl
      | some f => cases hlacks f hu
    obtain ⟨hfits, -, hreads⟩ := hended ho
    exact ⟨plain, term, rfl, ho, hfits.2, hreads⟩

/-- After any history of compiling, the output of a call that succeeds reads as
the lowered term of its text, and as nothing else. -/
theorem compile_reads {report : Report} (h : Compiled t)
    (hc : compile text options t = (.ok report, t')) :
    ∃ plain term, Typed.read text options = .ok (plain, term) ∧
      ∀ m, t'.ReadsOutput options.outputName m ↔ m = term.meaning t.editor options := by
  obtain ⟨plain, term, hread, -, -, hreads⟩ := compile_built h hc
  exact ⟨plain, term, hread, hreads⟩

theorem read_quotient :
    (match Typed.read "max(b,a,0.1)/b" {} with
      | .ok (_, .call .div [.call .max [.name x, .name y, .constant z], .name x']) =>
        decide (x = "b" ∧ y = "a" ∧ z = 0.1 ∧ x' = "b")
      | _ => false) = true := by decide +kernel

theorem compile_reads_after_failure :
    let failed := compile "r*b" (Options.declare {} "r" .rotation)
      (compile "a+b*c" {} (empty .geometry)).2
    failed.1 = .error (.unsupportedKinds .mult [.rotation, .scalar]) ∧
      ∃ report t', compile "max(b,a,0.1)/b" {} failed.2 = (.ok report, t') ∧
        ∀ m, t'.ReadsOutput "Result" m ↔
          m = .operation .math (Ordered.empty.insertAll [("operation", "DIVIDE")]) 0
            [.operation .math (Ordered.empty.insertAll [("operation", "MAXIMUM")]) 0
              [.operation .math (Ordered.empty.insertAll [("operation", "MAXIMUM")]) 0
                [.variable "b", .variable "a", .stored (some (.float 0.5))],
                .constant 0.1, .stored (some (.float 0.5))],
              .variable "b", .stored (some (.float 0.5))] := by
  intro failed
  have hr : (compile "max(b,a,0.1)/b" {} failed.2).1 = .ok ⟨5, 5, 2, .scalar⟩ := by decide +kernel
  have ht := ((Compiled.empty .geometry).compile "a+b*c" {}).compile "r*b"
    (Options.declare {} "r" .rotation)
  have heditor : failed.2.editor = .geometry := by decide +kernel
  have hnarrow : (0.1 : Numeric.Double).narrowed = 0.1 := by
    rw [← Numeric.Double.toSingle_eq_narrowed]
    decide +kernel
  have h := eq_of_fst hr
  obtain ⟨plain, term, hread, hreads⟩ := compile_reads ht h
  have hshape := read_quotient
  rw [hread] at hshape
  split at hshape
  · next heq =>
    cases heq
    obtain ⟨rfl, rfl, rfl, rfl⟩ := of_decide_eq_true hshape
    refine ⟨by decide +kernel, _, _, h, fun m => (hreads m).trans ?_⟩
    rw [heditor, ← hnarrow]
    rfl
  · cases hshape

/-- After any history of compiling, a term that was read from text is built if
and only if the editor offers its functions, the kinds of its variables have
types on the boundary and the calls take the kinds of their arguments. It then
has the kind that is inferred; else no fault comes from the tree. -/
theorem realize_ok_iff {dialect : Dialect} (h : Compiled t)
    (hterm : Term.ofText dialect text = .ok term) (unknowns : List String)
    (hn : term.names ⊆ unknowns) (options : Options) :
    ((∃ report, (realize unknowns term options t).1 = .ok report) ↔
      (∀ f ∈ term.calls, f.offeredBy t.editor = true) ∧
      (∀ n ∈ unknowns, (t.editor.boundaryType? (options.kindOf n)).isSome = true) ∧
      (term.kind? options).isSome = true) ∧
    (∀ report, (realize unknowns term options t).1 = .ok report →
      term.kind? options = some report.resultKind) ∧
    ∀ fault, (realize unknowns term options t).1 = .error fault →
      fault.faultClass = .type ∨ fault.faultClass = .unavailable := by
  obtain ⟨-, hended, hlacks⟩ := realize_ends h.tidy (Term.wellMade_ofText hterm) unknowns options
  have hsub : term.occurrences ⊆ unknowns := fun n hmem => hn (Term.mem_names.mpr hmem)
  cases hu : term.unavailable? t.editor with
  | some f =>
    have hnot : ¬∀ g ∈ term.calls, g.offeredBy t.editor = true := fun ho => by
      rw [Term.unavailable?_eq_none_iff.mpr ho] at hu
      cases hu
    rw [hlacks f hu]
    refine ⟨⟨nofun, fun hall => absurd hall.1 hnot⟩, nofun, ?_⟩
    rintro fault ⟨⟩
    exact .inr rfl
  | none =>
    have ho := Term.unavailable?_eq_none_iff.mp hu
    have hend := hended ho
    cases hr : (realize unknowns term options t).1 with
    | ok report =>
      rw [hr] at hend
      refine ⟨⟨fun _ => ⟨ho, hend.1⟩, fun _ => ⟨report, rfl⟩⟩, ?_, nofun⟩
      rintro report ⟨⟩
      exact hend.2.1
    | error fault =>
      rw [hr] at hend
      rcases hend with ⟨hclass, hfits⟩ | ⟨n, hmem, hnot, -⟩
      · refine ⟨⟨nofun, fun hall => absurd hall.2 (hfits hsub)⟩, nofun, ?_⟩
        rintro fault ⟨⟩
        exact hclass
      · exact absurd (hsub hmem) hnot

theorem realize_ok_iff_by_components :
    ∃ t term, t = (compile "sqrt([b,c,b])" { dialect := .vector } (empty .compositor)).2 ∧
      Term.ofText .vector "sqrt([a,b,a])" = .ok term ∧ term.names = ["a", "b"] ∧
      ∃ report, (realize ["a", "b"] term { dialect := .vector } t).1 = .ok report ∧
        term.kind? { dialect := .vector } = some report.resultKind := by
  have ht := (Compiled.empty .compositor).compile "sqrt([b,c,b])" { dialect := .vector }
  have hread : (Term.ofText .vector "sqrt([a,b,a])").map
      (fun term => (term.names, term.calls, term.kind? { dialect := .vector })) =
        .ok (["a", "b"], [.sqrt, .combixyz], some .vector) := by decide +kernel
  cases hterm : Term.ofText .vector "sqrt([a,b,a])" with
  | error e =>
    rw [hterm] at hread
    cases hread
  | ok term =>
    rw [hterm] at hread
    obtain ⟨hnames, htail⟩ := Prod.mk.inj (Except.ok.inj hread)
    obtain ⟨hcalls, hinferred⟩ := Prod.mk.inj htail
    obtain ⟨hiff, hkind, -⟩ := realize_ok_iff ht hterm ["a", "b"] (by rw [hnames]; simp)
      { dialect := .vector }
    obtain ⟨report, hr⟩ := hiff.mpr
      ⟨by rw [hcalls]; decide +kernel, by decide +kernel, by rw [hinferred]; rfl⟩
    exact ⟨_, _, rfl, rfl, hnames, report, hr, hkind report hr⟩

end Tree

end FormulaGraph
