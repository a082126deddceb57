import FormulaGraph.Proofs.Pass.Amendments
import FormulaGraph.Proofs.Typed

/-!
Faults of typed text and what they leave of the tree. Reading the text and
finding its functions come before every edit. One fault of this sort comes
late: a name that is neither a variable nor called where it stands is looked up
while the term is built, after the inputs have been declared.
-/

namespace FormulaGraph

open Numeric Run

namespace Pass

variable {fault : Fault} {constantNodes : Bool} {values : List TermValue} {p p' : Pass}
  {inputs : Inputs}

theorem untextual_of_callFault? {editor : Editor} {f : Function} {args : List Operand}
    (hf : f.signature.fault? args.length = none)
    (h : callFault? editor f args = some fault) : fault.isTextual = false := by
  unfold callFault? at h
  rw [hf] at h
  dsimp only at h
  split at h
  · cases h
    rfl
  · unfold kindFault? at h
    split at h
    · cases h
      rfl
    · obtain ⟨i, -, rfl⟩ := Option.map_eq_some_iff.mp h
      rfl

theorem length_of_materializeAll
    {operands : List Operand}
    (h : materializeAll constantNodes values p = (.ok operands, p')) :
    operands.length = values.length := by
  induction values generalizing operands p with
  | nil =>
    cases h
    rfl
  | cons v rest ih =>
    obtain ⟨operand, p₁, -, h⟩ := bind_eq_ok.mp h
    obtain ⟨more, p₂, hm, h⟩ := bind_eq_ok.mp h
    cases h
    simp [ih hm]

theorem length_of_evaluateAll {terms : List Term}
    (h : evaluateAll constantNodes inputs terms p = (.ok values, p')) :
    values.length = terms.length := by
  induction terms generalizing values p with
  | nil =>
    cases h
    rfl
  | cons t rest ih =>
    obtain ⟨value, p₁, -, h⟩ := bind_eq_ok.mp h
    obtain ⟨more, p₂, hm, h⟩ := bind_eq_ok.mp h
    cases h
    simp [ih hm]

/-- The textual faults of evaluating terms with some names: names that are no
inputs. -/
def Unresolved (inputs : Inputs) (names : List String) (fault : Fault) : Prop :=
  ∃ n ∈ names, inputs.lookup n = none ∧ fault = .unknownVariable n

/-- A computation that reports no textual faults but those that `X` allows. -/
abbrev Confined (X : Fault → Prop) {α : Type} (m : PassM α) : Prop :=
  Makes False X (fun _ => True) (fun _ _ => True) m

theorem Confined.mono {X X' : Fault → Prop} {α : Type} {m : PassM α}
    (h : ∀ fault, X fault → X' fault) (hm : Confined X m) : Confined X' m :=
  fun p => ⟨fun fault p' hf => ((hm p).fault fault p' hf).imp_right (h fault), nofun⟩

theorem Unresolved.mono {names names' : List String} (h : names ⊆ names')
    (fault : Fault) : Unresolved inputs names fault → Unresolved inputs names' fault := by
  rintro ⟨n, hn, hi, rfl⟩
  exact ⟨n, h hn, hi, rfl⟩

mutual

theorem confined_evaluate (constantNodes : Bool) (inputs : Inputs) (t : Term)
    (ht : t.WellMade) :
    Confined (Unresolved inputs t.occurrences) (evaluate constantNodes inputs t) := by
  match t with
  | .constant x => exact .pure _
  | .name n =>
    simp only [evaluate]
    split
    · exact .pure _
    · next h => exact .throw (.inr ⟨n, List.mem_singleton.mpr rfl, h, rfl⟩)
  | .call f args =>
    simp only [evaluate]
    refine fun p => (confined_evaluateAll constantNodes inputs args ht.2 p).bind
      fun values p₁ hv => ?_
    split
    · exact .idle rfl
    · refine (compositional_makes.materializeAll _ _ p₁).bind fun operands p₂ ho => ?_
      have hlen : operands.length = args.length := by
        rw [length_of_materializeAll ho, length_of_evaluateAll hv]
      refine (compositional_makes.call (fun t fault hf => Makes.throw (.inl ?_)) p₂).bind
        fun _ _ _ => .idle rfl
      exact untextual_of_callFault? (by rw [hlen]; exact ht.1) hf

theorem confined_evaluateAll (constantNodes : Bool) (inputs : Inputs) (terms : List Term)
    (ht : Term.WellMadeAll terms) :
    Confined (Unresolved inputs (Term.occurrencesAll terms))
      (evaluateAll constantNodes inputs terms) := by
  match terms with
  | [] => exact .pure _
  | t :: rest =>
    simp only [evaluateAll]
    have first := (confined_evaluate constantNodes inputs t ht.1).mono
      (Unresolved.mono (List.subset_append_left _ (Term.occurrencesAll rest)))
    have others := (confined_evaluateAll constantNodes inputs rest ht.2).mono
      (Unresolved.mono (List.subset_append_right t.occurrences _))
    exact .bind first fun _ => .bind others fun _ => .pure _

end

/-- A pass on a well-made term reports a textual fault only for a name of the
term that is none of the variables. -/
theorem fault_of_synthesis {unknowns : List String} {term : Term} {options : Options}
    (ht : term.WellMade)
    (h : synthesis unknowns term options p = (.error fault, p')) :
    fault.isTextual = false ∨
      ∃ n ∈ term.occurrences, n ∉ unknowns ∧ fault = .unknownVariable n := by
  have confined : MakesAt False (fun fault => ∃ n ∈ term.occurrences, n ∉ unknowns ∧
      fault = .unknownVariable n) (fun _ => True) (fun _ _ => True) p
      (synthesis unknowns term options) := by
    refine (makes_declareInputs (fun _ => trivial) _ _ _ p).bind fun inputs p₁ hi => ?_
    refine Makes.bind (.modifyTree nofun) (fun _ => ?_) p₁
    refine .bind ((confined_evaluate options.constantNodes inputs term ht).mono ?_) fun value => ?_
    · rintro fault ⟨n, hn, hl, rfl⟩
      exact ⟨n, hn, fun hm => lookup_of_declareInputs hi (.inl hm) hl, rfl⟩
    · refine .bind (makes_output trivial _) fun target => ?_
      exact .bind (makes_assign trivial _) fun _ => makes_conclude _
  exact confined.fault fault p' h

end Pass

namespace Tree

/-- Compiling that ends with a fault of the text leaves the tree as it was if
the text could not be read. Else the fault is a name of the term that is none
of the variables of the text: with every name a variable the tree is kept. -/
theorem compile_textual_fault {t t' : Tree} {text : String} {options : Options} {fault : Fault}
    (h : (compile text options).run t = (.error fault, t')) (hf : fault.isTextual) :
    (Typed.read text options = .error fault ∧ t' = t) ∨
      ∃ plain term n, Typed.read text options = .ok (plain, term) ∧
        n ∈ term.occurrences ∧ n ∉ plain.unknowns ∧ fault = .unknownVariable n := by
  have h : compile text options t = (.error fault, t') := h
  rw [compile_run] at h
  rcases hr : Typed.read text options with e | ⟨plain, term⟩
  · rw [hr] at h
    cases h
    exact .inl ⟨rfl, rfl⟩
  · rw [hr] at h
    dsimp only at h
    rw [realize_run] at h
    split at h
    · cases h
      simp [Fault.isTextual, Fault.faultClass] at hf
    · have hs : Pass.synthesis plain.unknowns term options (Pass.start t) =
          (.error fault, (Pass.synthesis plain.unknowns term options (Pass.start t)).2) :=
        Prod.ext (Prod.mk.inj h).1 rfl
      rcases Pass.fault_of_synthesis (Typed.wellMade_of_read hr) hs with hu | ⟨n, hn, hu, rfl⟩
      · rw [hu] at hf
        cases hf
      · exact .inr ⟨plain, term, n, rfl, hn, hu, rfl⟩

theorem compile_textual_fault_unclosed :
    (compile "a+(" {}).run (empty .shader) = (.error (.unreadable "a+("), empty .shader) ∧
      ((Typed.read "a+(" {} = .error (.unreadable "a+(") ∧ empty .shader = empty .shader) ∨
        ∃ plain term n, Typed.read "a+(" {} = .ok (plain, term) ∧
          n ∈ term.occurrences ∧ n ∉ plain.unknowns ∧
          Fault.unreadable "a+(" = .unknownVariable n) := by
  have h : (compile "a+(" {}).run (empty .shader) = (.error (.unreadable "a+("), empty .shader) :=
    Prod.ext (by decide +kernel) (by decide +kernel)
  exact ⟨h, compile_textual_fault h rfl⟩

/-- The name of a function that is called elsewhere in the text is refused only
after the inputs have been declared. -/
theorem compile_bare_function :
    ((compile "sin+sin(a)" {}).run (empty .geometry)).1 = .error (.unknownVariable "sin") ∧
      ((compile "sin+sin(a)" {}).run (empty .geometry)).2 ≠ empty .geometry := by
  decide +kernel

end Tree

end FormulaGraph
