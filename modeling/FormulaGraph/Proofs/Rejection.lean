import FormulaGraph.Proofs.Pass.Operations

/-!
Operations that reject their operands. Whatever was done before, and whatever
handles an operation is given: when it is refused for the kinds, the number or
the indices of its operands, or because the editor does not have it, the tree is
as it was. The default of an input is the exception.
-/

namespace FormulaGraph.Pass

open Run Numeric

theorem viable_of_edited {t : Tree} (ht : t.Edited) (actions : List Action) :
    (actions.foldl Action.perform (start t)).Viable :=
  (viable_start ht.hosted ht.equipped).performs actions

/-- An operation that rejects its operands leaves the tree as it was. Only an
input whose default does not fit is there all the same, as if it had been asked
for without a default. -/
theorem rejected_spares {t : Tree} (ht : t.Edited) (actions : List Action) (a : Action)
    {fault : Fault} (h : (a.run (actions.foldl Action.perform (start t))).1 = .error fault)
    (hr : fault.rejects = true) :
    a.Spared (actions.foldl Action.perform (start t)) fault
      (a.perform (actions.foldl Action.perform (start t))) := by
  rw [a.perform_eq]
  exact (a.behaves (fun _ hg => .inl hg) (a.within_free _) (viable_of_edited ht actions)).2.2
    fault h hr

/-- A sum of a vector and a number is there when an update is refused for the
index of its second component. -/
theorem rejected_spares_update :
    let v : Handle := ⟨.vector, 0, ⟨.groupInput, ⟨2⟩⟩, some "v"⟩
    let a : Handle := ⟨.scalar, 0, ⟨.groupInput, ⟨3⟩⟩, some "a"⟩
    let p := [.input "v" .vector none, .input "a" .scalar none,
      .call .add [.handle v, .handle a]].foldl Action.perform (start (.empty .geometry))
    let update : Action := .replaceSome v [(0, .handle a), (3, .handle a)]
    p.tree.nodes.length = 3 ∧ (update.perform p).tree = p.tree := by
  intro v a p update
  have hspared : update.Spared p (.componentIndex 3) (update.perform p) :=
    rejected_spares (.empty .geometry) _ update (by decide +kernel) (by decide)
  refine ⟨by decide +kernel, hspared.resolve_right ?_⟩
  rintro ⟨_, _, _, _, heq, -⟩
  simp [update] at heq

/-- A rotation is no default for a single number. The input is refused, and yet
it is there. -/
theorem rejected_input_stays :
    let a : Action := .input "a" .scalar (some (.rotation 1 0 0 0))
    (a.run (start (.empty .geometry))).1 = .error (.literalOnBoundary .rotation .float) ∧
    (Fault.literalOnBoundary .rotation .float).rejects = true ∧
    (start (.empty .geometry)).tree.boundary = [] ∧
    (a.perform (start (.empty .geometry))).tree.boundary =
      [⟨⟨2⟩, "a", .input, .float, none, false⟩] := by
  decide +kernel

end FormulaGraph.Pass
