import FormulaGraph.Proofs.Pass.Bookkeeping

/-!
What a pass has evaluated it has for good: with constants as nodes, evaluating a
term again finds every handle in the books, gives the same value and changes
nothing.
-/

namespace FormulaGraph.Pass

open Run

variable {α β : Type} {p p' : Pass} {m : PassM α} {f : α → PassM β}

/-- A computation that a pass need not do again. Whoever remembers what the pass
has got gets the same, and nothing changes. -/
def Recalls (m : PassM α) (a : α) (p : Pass) : Prop := ∀ q, Remembers p q → m q = (.ok a, q)

namespace Recalls

theorem mono {a : α} (h : Recalls m a p) (hp : Remembers p p') : Recalls m a p' :=
  fun q hq => h q (hp.trans hq)

theorem pure (a : α) (p : Pass) : Recalls (pure a : PassM α) a p := fun _ _ => rfl

theorem bind {a : α} {b : β} (hm : Recalls m a p) (hf : Recalls (f a) b p) :
    Recalls (m >>= f) b p := fun q hq => (bind_of_ok (hm q hq)).trans (hf q hq)

end Recalls

section Recalling

variable {handles : List Handle}
  {h : Handle} {o : Operand} {values : List TermValue}

theorem not_isSeparation_constant (text : String) :
    ¬Tag.IsSeparation (Tag.constantMark ++ text) := by
  rintro ⟨ms, h⟩
  have := congrArg Tag.letter? h
  rw [Tag.letter?_operation] at this
  simp [Tag.letter?, Tag.constantMark] at this

theorem constant_recalls {x : Numeric.Double} (hrun : constant x p = (.ok h, p')) :
    Recalls (constant x) h p' := by
  have hkept : ∃ hs, p'.results.lookup (Tag.constantMark ++ x.text) = some (h :: hs) := by
    obtain ⟨found, q, hlook, hbuild⟩ := bind_eq_ok.mp hrun
    obtain ⟨hfound, hq⟩ := result?_cases hlook
    subst hq
    split at hbuild
    · cases hbuild
      exact ⟨_, hfound.symm⟩
    · obtain ⟨id, p₁, -, hhold⟩ := bind_eq_ok.mp hbuild
      obtain ⟨_, _, ⟨⟩, hhold⟩ := bind_eq_ok.mp hhold
      obtain ⟨_, _, ⟨⟩, hread⟩ := bind_eq_ok.mp hhold
      obtain ⟨g, p₂, -, hkeep⟩ := bind_eq_ok.mp hread
      cases hkeep
      exact ⟨[], List.lookup_cons_self⟩
  obtain ⟨hs, hkept⟩ := hkept
  intro q hq
  have hlook : result? (Tag.constantMark ++ x.text) q = (.ok (some (h :: hs)), q) :=
    congrArg (fun found => (Except.ok found, q))
      (hq.results _ h hs (not_isSeparation_constant _) hkept)
  unfold constant
  rw [bind_of_ok hlook]
  rfl

theorem markers_handles (literals : Nat) (handles : List Handle) :
    markers literals (handles.map .handle) = (handles.map Handle.marker, literals) := by
  induction handles with
  | nil => rfl
  | cons h rest ih => rw [List.map_cons, markers, ih, List.map_cons]

theorem tag_handles (op : String) (handles : List Handle) (p : Pass) :
    tag op (handles.map .handle) p = (.ok (Tag.operation op (handles.map Handle.marker)), p) := by
  show (Except.ok (Tag.operation op (markers p.literals _).1),
    { p with literals := (markers p.literals _).2 }) = _
  rw [markers_handles]

/-- Handles have their markers for good, so an application to them has its tag. -/
theorem applyBy_recalls {construct : Construction} {f : Function}
    (hrun : applyBy construct f (handles.map .handle) p = (.ok h, p')) :
    Recalls (applyBy construct f (handles.map .handle)) h p' := by
  let name := Tag.operation f.name (handles.map Handle.marker)
  have hkept : ∃ hs, p'.results.lookup name = some (h :: hs) := by
    obtain ⟨_, _, htag, hlook⟩ := bind_eq_ok.mp hrun
    cases (tag_handles _ _ _).symm.trans htag
    obtain ⟨found, q, hlook, hmake⟩ := bind_eq_ok.mp hlook
    obtain ⟨hfound, hq⟩ := result?_cases hlook
    subst hq
    split at hmake
    · cases hmake
      exact ⟨_, hfound.symm⟩
    · obtain ⟨g, p₁, -, hkeep⟩ := bind_eq_ok.mp hmake
      cases hkeep
      exact ⟨[], List.lookup_cons_self⟩
  obtain ⟨hs, hkept⟩ := hkept
  intro q hq
  have hlook : result? name q = (.ok (some (h :: hs)), q) :=
    congrArg (fun found => (Except.ok found, q)) (hq.results _ h hs (not_isSeparation _ _) hkept)
  unfold applyBy
  rw [bind_of_ok (tag_handles _ _ _), bind_of_ok hlook]
  rfl

theorem call_recalls {f : Function} (hf : folded? f (handles.map .handle) = none)
    (hrun : call f (handles.map .handle) p = (.ok o, p')) :
    (∃ h, o = .handle h) ∧ Recalls (call f (handles.map .handle)) o p' := by
  obtain ⟨_, _, ⟨⟩, hcall⟩ := bind_eq_ok.mp hrun
  have heditor := (compositional_remembers.call (fun _ _ _ => Leaves.throw _) p o p' hrun).editor
  cases hfault : callFault? p.tree.editor f (handles.map .handle) with
  | some fault =>
    rw [hfault] at hcall
    cases hcall
  | none =>
    rw [hfault] at hcall
    dsimp only at hcall
    rw [hf] at hcall
    obtain ⟨h, p₁, happly, hret⟩ := bind_eq_ok.mp hcall
    cases hret
    refine ⟨⟨h, rfl⟩, fun q hq => ?_⟩
    unfold call
    rw [bind_of_ok (show getTree q = (.ok q.tree, q) from rfl), hq.editor, heditor, hfault]
    dsimp only
    rw [hf]
    exact bind_of_ok (applyBy_recalls happly q hq)

def TermValue.IsPlaced : TermValue → Prop
  | .operand (.literal _) => False
  | _ => True

theorem materialize_recalls {v : TermValue} (hv : v.IsPlaced)
    (hrun : materialize true v p = (.ok o, p')) :
    (∃ h, o = .handle h) ∧ Recalls (materialize true v) o p' := by
  match v with
  | .operand (.handle h) =>
    cases hrun
    exact ⟨⟨h, rfl⟩, .pure _ _⟩
  | .number x =>
    obtain ⟨h, p₁, hconstant, hret⟩ := bind_eq_ok.mp hrun
    cases hret
    exact ⟨⟨h, rfl⟩, (constant_recalls hconstant).bind (.pure _ _)⟩

theorem materializeAll_recalls {os : List Operand}
    (hv : ∀ v ∈ values, v.IsPlaced) (hrun : materializeAll true values p = (.ok os, p')) :
    ∃ handles : List Handle, os = handles.map .handle ∧ handles.length = values.length ∧
      Recalls (materializeAll true values) os p' := by
  induction values generalizing p os with
  | nil =>
    cases hrun
    exact ⟨[], rfl, rfl, .pure _ _⟩
  | cons v rest ih =>
    obtain ⟨o, p₁, hfirst, hrest⟩ := bind_eq_ok.mp hrun
    obtain ⟨os, p₂, hmore, hret⟩ := bind_eq_ok.mp hrest
    cases hret
    obtain ⟨⟨h, rfl⟩, hrecalls⟩ := materialize_recalls (hv v List.mem_cons_self) hfirst
    obtain ⟨handles, rfl, hlen, hrecallsAll⟩ :=
      ih (fun w hw => hv w (List.mem_cons_of_mem _ hw)) hmore
    refine ⟨h :: handles, rfl, congrArg (· + 1) hlen, ?_⟩
    exact (hrecalls.mono (compositional_remembers.materializeAll _ _ _ _ _ hmore)).bind
      (hrecallsAll.bind (.pure _ _))

/-- Handles do not fold, and no arguments do not fold if they did not as values. -/
theorem folded?_handles {f : Function}
    (hlen : handles.length = values.length) (hf : foldedTerm? f values = none) :
    folded? f (handles.map .handle) = none := by
  cases handles with
  | nil =>
    obtain rfl := List.eq_nil_of_length_eq_zero hlen.symm
    unfold foldedTerm? at hf
    unfold folded?
    split
    · next hfolds =>
      rw [if_pos hfolds] at hf
      exact Option.map_eq_none_iff.mpr hf
    · rfl
  | cons h rest =>
    unfold folded?
    split <;> rfl

variable {inputs : Inputs}

mutual

/-- The value of a term is had again for nothing, if constants are nodes. -/
theorem evaluate_recalls (term : Term) {p p' : Pass} {v : TermValue}
    (hrun : evaluate true inputs term p = (.ok v, p')) :
    v.IsPlaced ∧ Recalls (evaluate true inputs term) v p' := by
  match term with
  | .constant x =>
    unfold evaluate at hrun ⊢
    cases hrun
    exact ⟨trivial, .pure _ _⟩
  | .name n =>
    unfold evaluate at hrun ⊢
    cases hn : inputs.lookup n with
    | none =>
      rw [hn] at hrun
      cases hrun
    | some h =>
      rw [hn] at hrun
      cases hrun
      exact ⟨trivial, .pure _ _⟩
  | .call f args =>
    unfold evaluate at hrun ⊢
    obtain ⟨values, p₁, hargs, hcall⟩ := bind_eq_ok.mp hrun
    obtain ⟨hplaced, hrecalls⟩ := evaluateAll_recalls args hargs
    cases hfold : foldedTerm? f values with
    | some x =>
      rw [hfold] at hcall
      cases hcall
      refine ⟨trivial, hrecalls.bind ?_⟩
      rw [hfold]
      exact .pure _ _
    | none =>
      rw [hfold] at hcall
      obtain ⟨os, p₂, hmade, hcalled⟩ := bind_eq_ok.mp hcall
      obtain ⟨o, p₃, happlied, hret⟩ := bind_eq_ok.mp hcalled
      cases hret
      obtain ⟨handles, rfl, hlen, hrecallsMade⟩ := materializeAll_recalls hplaced hmade
      obtain ⟨⟨h, rfl⟩, hrecallsCall⟩ := call_recalls (folded?_handles hlen hfold) happlied
      have hlater := compositional_remembers.call (fun _ _ _ => Leaves.throw _) _ _ _ happlied
      refine ⟨trivial, (hrecalls.mono ?_).bind ?_⟩
      · exact (compositional_remembers.materializeAll _ _ _ _ _ hmade).trans hlater
      · rw [hfold]
        exact (hrecallsMade.mono hlater).bind (hrecallsCall.bind (.pure _ _))

theorem evaluateAll_recalls (terms : List Term) {p p' : Pass} {values : List TermValue}
    (hrun : evaluateAll true inputs terms p = (.ok values, p')) :
    (∀ v ∈ values, v.IsPlaced) ∧ Recalls (evaluateAll true inputs terms) values p' := by
  match terms with
  | [] =>
    unfold evaluateAll at hrun ⊢
    cases hrun
    exact ⟨by simp, .pure _ _⟩
  | term :: rest =>
    unfold evaluateAll at hrun ⊢
    obtain ⟨v, p₁, hfirst, hrest⟩ := bind_eq_ok.mp hrun
    obtain ⟨values, p₂, hmore, hret⟩ := bind_eq_ok.mp hrest
    cases hret
    obtain ⟨hplaced, hrecalls⟩ := evaluate_recalls term hfirst
    obtain ⟨hplacedAll, hrecallsAll⟩ := evaluateAll_recalls rest hmore
    refine ⟨List.forall_mem_cons.mpr ⟨hplaced, hplacedAll⟩, ?_⟩
    exact (hrecalls.mono (compositional_remembers.evaluateAll Leaves.throw _ _ _ _ _ _ hmore)).bind
      (hrecallsAll.bind (.pure _ _))

end

end Recalling

end FormulaGraph.Pass
