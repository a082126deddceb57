import FormulaGraph.Proofs.Formula.Lexing
import FormulaGraph.Proofs.Run

/-!
Compiling is reading typed text, which looks at no tree, and then building its
term in the tree. Terms that are read are well made: every call has a fitting
number of arguments and every constant is a number, not a NaN.
-/

namespace FormulaGraph

open Numeric Run

variable {text : String} {n : Nat}

namespace Lexeme

def Digital : Lexeme → Prop
  | numeral text => ∀ c ∈ text.toList, isNumeralChar c
  | _ => True

theorem Lexes.digital {text : List Char} {lexemes : List Lexeme} (h : Lexes text lexemes) :
    ∀ l ∈ lexemes, l.Digital := by
  induction h with
  | nil => exact nofun
  | blank _ _ ih => exact ih
  | @lexeme l _ _ _ first _ ih =>
    refine List.forall_mem_cons.mpr ⟨?_, ih⟩
    cases first with
    | numeral number _ =>
      intro c hc
      rw [String.toList_ofList] at hc
      exact number.chars c hc
    | name _ _ _ => trivial
    | sign spelling _ => cases l <;> trivial

end Lexeme

theorem Surface.digital_of_ofText? {surface : Surface} (h : ofText? text = some surface) :
    ∀ l ∈ surface.leaves, l.Digital := by
  obtain ⟨lexemes, hl, heq⟩ := leaves_of_ofText? h
  intro l hmem
  rw [heq] at hmem
  exact (Lexeme.ofText?_eq_some_iff.mp hl).digital l (List.mem_filter.mp hmem).1

namespace Numeric

theorem Double.magnitude_le_of_ofText? {x : Double} (ht : ∀ c ∈ text.toList, Lexeme.isNumeralChar c)
    (h : Double.ofText? text = some x) :
    x.magnitude ≤ Format.infinity .double := by
  rw [Double.ofText?_numeral ht] at h
  obtain ⟨d, -, rfl⟩ := Option.map_eq_some_iff.mp h
  exact Decimal.magnitude_toDouble_le _ _

end Numeric

namespace Term

mutual

/-- Calls have fitting numbers of arguments and constants are numbers. -/
def WellMade : Term → Prop
  | call f args => f.signature.fault? args.length = none ∧ WellMadeAll args
  | name _ => True
  | constant x => x.magnitude ≤ Format.infinity .double

def WellMadeAll : List Term → Prop
  | [] => True
  | x :: xs => x.WellMade ∧ WellMadeAll xs

end

theorem length_ofSurfaces {dialect : Dialect} {items : List Surface} {terms : List Term}
    (h : ofSurfaces dialect items = .ok terms) : terms.length = items.length := by
  induction items generalizing terms with
  | nil =>
    cases h
    rfl
  | cons x xs ih =>
    obtain ⟨y, ys, -, hys, rfl⟩ := ofSurfaces_cons h
    simp [ih hys]

theorem fault?_of_checkArity {f : Function} {name : String} (h : checkArity f name n = .ok ()) :
    f.signature.fault? n = none := by
  unfold checkArity at h
  split at h
  · cases h
  · assumption

theorem fault?_operator (op : Operator) : op.function.signature.fault? 2 = none := by
  cases op <;> rfl

mutual

theorem wellMade_ofSurface {dialect : Dialect} {surface : Surface} {term : Term}
    (hs : ∀ l ∈ surface.leaves, l.Digital) (h : ofSurface dialect surface = .ok term) :
    term.WellMade := by
  match surface with
  | .numeral text =>
    simp only [ofSurface] at h
    split at h
    · next x hx =>
      cases h
      exact Double.magnitude_le_of_ofText? (hs _ List.mem_cons_self) hx
    · cases h
  | .name n =>
    cases h
    trivial
  | .plus x =>
    have hx : ∀ l ∈ x.leaves, l.Digital := hs
    have h : ofSurface dialect x = .ok term := h
    exact wellMade_ofSurface hx h
  | .negate x =>
    have hx : ∀ l ∈ x.leaves, l.Digital := hs
    obtain ⟨y, hy, rfl⟩ := ofSurface_negate h
    exact ⟨rfl, wellMade_ofSurface hx hy, trivial⟩
  | .binary op l r =>
    obtain ⟨l', r', hl, hr, rfl⟩ := ofSurface_binary h
    refine ⟨fault?_operator op, wellMade_ofSurface (fun x hx => ?_) hl,
      wellMade_ofSurface (fun x hx => ?_) hr, trivial⟩
    · exact hs x (List.mem_append_left _ hx)
    · exact hs x (List.mem_append_right _ hx)
  | .call n args =>
    obtain ⟨f, terms, -, hc, ha, rfl⟩ := ofSurface_call h
    refine ⟨?_, wellMade_ofSurfaces (fun x hx => hs x (List.mem_cons_of_mem _ hx)) ha⟩
    rw [length_ofSurfaces ha]
    exact fault?_of_checkArity hc
  | .tuple _ => cases h
  | .list items =>
    have hi : ∀ l ∈ Surface.leavesAll items, l.Digital := hs
    obtain ⟨terms, hn, ht, rfl⟩ := ofSurface_list h
    refine ⟨?_, wellMade_ofSurfaces hi ht⟩
    rw [length_ofSurfaces ht, hn]
    rfl

theorem wellMade_ofSurfaces {dialect : Dialect} {items : List Surface} {terms : List Term}
    (hs : ∀ l ∈ Surface.leavesAll items, l.Digital) (h : ofSurfaces dialect items = .ok terms) :
    WellMadeAll terms := by
  match items with
  | [] =>
    cases h
    trivial
  | x :: xs =>
    obtain ⟨y, ys, hy, hys, rfl⟩ := ofSurfaces_cons h
    refine ⟨wellMade_ofSurface (fun l hl => ?_) hy, wellMade_ofSurfaces (fun l hl => ?_) hys⟩
    · exact hs l (List.mem_append_left _ hl)
    · exact hs l (List.mem_append_right _ hl)

end

theorem wellMade_ofText {dialect : Dialect} {term : Term} (h : ofText dialect text = .ok term) :
    term.WellMade := by
  obtain ⟨surface, hs, ht⟩ := ofText_ok h
  exact wellMade_ofSurface (Surface.digital_of_ofText? hs) ht

end Term

/-- What typed text says before any tree is looked at: its plain form and its
term. -/
def Typed.read (text : String) (options : Options) : Except Fault (Plain × Term) := do
  let text := if options.expandNames then (Symbol.expandNames? text).getD text else text
  let plain ← Plain.ofRaw ⟨options.algebraic, options.dialect⟩ text
  let term ← Term.ofText options.dialect plain.text
  return (plain, term)

theorem Typed.wellMade_of_read {text : String} {options : Options} {plain : Plain} {term : Term}
    (h : Typed.read text options = .ok (plain, term)) : term.WellMade := by
  simp only [Typed.read, bind, Except.bind] at h
  split at h
  · cases h
  · split at h
    · cases h
    · next ht =>
      cases h
      exact Term.wellMade_ofText ht

namespace Tree

theorem compile_run (text : String) (options : Options) (t : Tree) :
    compile text options t = match Typed.read text options with
      | .ok (plain, term) => realize plain.unknowns term options t
      | .error fault => (.error fault, t) := by
  unfold compile Typed.read
  dsimp only
  rw [bind_run]
  rcases Plain.ofRaw ⟨options.algebraic, options.dialect⟩
    (if options.expandNames then (Symbol.expandNames? text).getD text else text) with e | plain
  · rfl
  · show ((liftM (Term.ofText options.dialect plain.text) >>= _ : Edit Fault Report)) t = _
    rw [bind_run]
    rcases hterm : Term.ofText options.dialect plain.text with e | term
    · simp only [bind, Except.bind, hterm]
      rfl
    · simp only [bind, Except.bind, hterm]
      rfl

theorem realize_run (unknowns : List String) (term : Term) (options : Options) (t : Tree) :
    realize unknowns term options t = match term.unavailable? t.editor with
      | some f => (.error (.unavailableFunction f t.editor), t)
      | none => ((Pass.synthesis unknowns term options (Pass.start t)).1,
          (Pass.synthesis unknowns term options (Pass.start t)).2.tree) := by
  unfold realize
  rw [bind_of_ok (get_run t)]
  rcases term.unavailable? t.editor with _ | f
  · rfl
  · rfl

end Tree

end FormulaGraph
