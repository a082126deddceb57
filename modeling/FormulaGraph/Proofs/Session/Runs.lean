import Mathlib.Data.List.Perm.Subperm
import FormulaGraph.Proofs.Typed
import FormulaGraph.Session

/-!
Calls of a session taken apart. A call sets text or options and then runs a
pass, unless text and options are those of the last success. A pass writes the
text into the tree and compiles it as it stands: the names of symbols were
replaced when the text was set.
-/

namespace FormulaGraph

open Run

variable {α : Type}

theorem Ordered.get?_eq_some_iff {m : Ordered α} {key : String} {value : α} :
    m.get? key = some value ↔ (key, value) ∈ m.entries := by
  obtain ⟨entries, hd⟩ := m
  change entries.lookup key = some value ↔ (key, value) ∈ entries
  induction entries with
  | nil => simp
  | cons entry rest ih =>
    obtain ⟨k, v⟩ := entry
    obtain ⟨hk, hrest⟩ := List.nodup_cons.mp hd
    rw [List.lookup_cons]
    by_cases h : key = k
    · subst h
      have hnot : (key, value) ∉ rest := fun hmem => hk (List.mem_map.mpr ⟨_, hmem, rfl⟩)
      simp [hnot, eq_comm]
    · simp [h, beq_false_of_ne h, ih hrest]

namespace Options

def asTyped (o : Options) : Options := { o with expandNames := false }

theorem get?_of_sameKinds {a b : Ordered Kind} (h : sameKinds a b = true) (name : String) :
    a.get? name = b.get? name := by
  rw [sameKinds, Bool.and_eq_true, beq_iff_eq, List.all_eq_true] at h
  obtain ⟨hlength, hall⟩ := h
  have hsub : a.entries ⊆ b.entries := by
    intro entry hentry
    have := hall entry hentry
    rw [beq_iff_eq] at this
    exact Ordered.get?_eq_some_iff.mp this
  have hperm : a.entries.Perm b.entries :=
    (List.subperm_of_subset (a.nodup.of_map _) hsub).perm_of_length_le (Nat.le_of_eq hlength.symm)
  refine Option.ext fun kind => ?_
  rw [Ordered.get?_eq_some_iff, Ordered.get?_eq_some_iff, hperm.mem_iff]

theorem of_agrees {a b : Options} (h : a.agrees b = true) :
    a.dialect = b.dialect ∧ a.algebraic = b.algebraic ∧ a.constantNodes = b.constantNodes ∧
      a.outputName = b.outputName ∧ ∀ name, a.kindOf name = b.kindOf name := by
  rw [agrees, Bool.and_eq_true, beq_iff_eq, mk.injEq] at h
  obtain ⟨⟨hdialect, halgebraic, -, hconstant, houtput, -⟩, hkinds⟩ := h
  refine ⟨hdialect, halgebraic, hconstant, houtput, fun name => ?_⟩
  rw [kindOf, get?_of_sameKinds hkinds, kindOf]

end Options

namespace Pass

variable {a b : Options}

theorem declareInputs_congr (hk : ∀ name, a.kindOf name = b.kindOf name) (known : Inputs)
    (names : List String) : declareInputs a known names = declareInputs b known names := by
  induction names generalizing known with
  | nil => rfl
  | cons name rest ih =>
    unfold declareInputs
    rw [hk]
    exact bind_congr fun _ => ih _

theorem synthesis_congr (hd : a.dialect = b.dialect) (hc : a.constantNodes = b.constantNodes)
    (ho : a.outputName = b.outputName) (hk : ∀ name, a.kindOf name = b.kindOf name)
    (unknowns : List String) (term : Term) :
    synthesis unknowns term a = synthesis unknowns term b := by
  unfold synthesis
  rw [declareInputs_congr hk, hd, hc, ho]

end Pass

namespace Tree

variable {a b : Options}

theorem realize_congr (hd : a.dialect = b.dialect) (hc : a.constantNodes = b.constantNodes)
    (ho : a.outputName = b.outputName) (hk : ∀ name, a.kindOf name = b.kindOf name)
    (unknowns : List String) (term : Term) : realize unknowns term a = realize unknowns term b := by
  unfold realize
  rw [Pass.synthesis_congr hd hc ho hk]

/-- Text that is taken as typed compiles the same under options that agree. -/
theorem compile_asTyped_congr (h : a.agrees b = true) (text : String) :
    compile text a.asTyped = compile text b.asTyped := by
  obtain ⟨hd, ha, hc, ho, hk⟩ := Options.of_agrees h
  funext t
  rw [compile_run, compile_run]
  have hread : Typed.read text a.asTyped = Typed.read text b.asTyped := by
    unfold Typed.read Options.asTyped
    rw [hd, ha]
  rw [hread]
  split
  · rw [realize_congr (a := a.asTyped) (b := b.asTyped) hd hc ho hk]
  · rfl

end Tree

namespace Session

def pass (s : Session) (t : Tree) : Except Fault (Option Report) × Tree :=
  let t := t.writeText s.text
  if Text.allBlank s.text then (.ok none, (t.keepInputs []).releaseOutput s.options.outputName)
  else
    ((Tree.compile s.text s.options.asTyped t).1.map some,
      (Tree.compile s.text s.options.asTyped t).2)

theorem pass_of_blank {s : Session} (h : Text.allBlank s.text = true) (t : Tree) : s.pass t =
    (.ok none, ((t.writeText s.text).keepInputs []).releaseOutput s.options.outputName) := by
  unfold pass
  rw [if_pos h]

theorem pass_of_text {s : Session} (h : Text.allBlank s.text = false) (t : Tree) : s.pass t =
    ((Tree.compile s.text s.options.asTyped (t.writeText s.text)).1.map some,
      (Tree.compile s.text s.options.asTyped (t.writeText s.text)).2) := by
  unfold pass
  rw [if_neg (by simp [h])]

theorem modifyOutcome_run (f : Outcome → Outcome) (b : Bound) :
    modifyOutcome f b = (.ok (), { b with session.outcome := f b.session.outcome }) := rfl

theorem modifyTree_run (f : Tree → Tree) (b : Bound) :
    modifyTree f b = (.ok (), { b with tree := f b.tree }) := rfl

theorem noting_ok (note : Outcome → Outcome) (a : α) (b : Bound) :
    noting note (.ok a) b = (.ok a, b) := rfl

theorem noting_error (note : Outcome → Outcome) (fault : Fault) (b : Bound) :
    (noting note (.error fault) : Step α) b =
      (.error fault, { b with session.outcome := note b.session.outcome }) := rfl

theorem edit_run (e : Edit Fault α) (b : Bound) :
    edit e b = ((e b.tree).1, { b with tree := (e b.tree).2 }) := rfl

def reported : Except Fault (Option Report) → Nat
  | .ok (some report) => report.nodeCount
  | _ => 0

/-- A session pass compiles the text as it stands in the tree that holds it. -/
theorem run_eq (b : Bound) : ∃ outcome : Outcome,
    outcome.nodeCount = reported (b.session.pass b.tree).1 ∧ run b =
      ((b.session.pass b.tree).1, ⟨{ b.session with outcome }, (b.session.pass b.tree).2⟩) := by
  obtain ⟨⟨text, options, settled, outcome⟩, t⟩ := b
  unfold run pass
  rw [bind_of_ok (get_run _)]
  dsimp only
  rw [bind_of_ok (modifyOutcome_run _ _), bind_of_ok (modifyTree_run _ _)]
  split
  · exact ⟨_, rfl, rfl⟩
  · rw [Tree.compile_run]
    cases hplain : Plain.ofRaw ⟨options.algebraic, options.dialect⟩ text with
    | error fault =>
      have hread : Typed.read text options.asTyped = .error fault := by
        unfold Typed.read Options.asTyped
        simp [hplain, bind, Except.bind]
      rw [hread]
      exact ⟨_, rfl, bind_of_error (noting_error _ fault _)⟩
    | ok plain =>
      rw [bind_of_ok (noting_ok _ plain _), bind_of_ok (modifyOutcome_run _ _)]
      cases hterm : Term.ofText options.dialect plain.text with
      | error fault =>
        have hread : Typed.read text options.asTyped = .error fault := by
          unfold Typed.read Options.asTyped
          simp [hplain, hterm, bind, Except.bind]
        rw [hread]
        exact ⟨_, rfl, bind_of_error (noting_error _ fault _)⟩
      | ok term =>
        have hread : Typed.read text options.asTyped = .ok (plain, term) := by
          unfold Typed.read Options.asTyped
          simp [hplain, hterm, bind, Except.bind, pure, Except.pure]
        rw [bind_of_ok (noting_ok _ term _), bind_of_ok (modifyOutcome_run _ _), hread]
        dsimp only
        rw [Tree.realize_congr (a := options.asTyped) (b := options) rfl rfl rfl fun _ => rfl]
        rw [bind_run, edit_run]
        dsimp only
        cases Tree.realize plain.unknowns term options (t.writeText text) with
        | mk result t =>
          cases result with
          | error fault => exact ⟨_, rfl, rfl⟩
          | ok report => exact ⟨_, rfl, rfl⟩

theorem update_of_current {b : Bound} (h : b.session.isCurrent = true) :
    update b = (.ok none, b) := by
  unfold update
  rw [bind_of_ok (get_run _), if_pos h]
  rfl

/-- The text and options of a pass are remembered if it succeeds. -/
theorem update_of_changed {b : Bound} (h : b.session.isCurrent = false) :
    ∃ outcome : Outcome, outcome.nodeCount = reported (b.session.pass b.tree).1 ∧
      update b = ((b.session.pass b.tree).1,
        { session := { b.session with
            settled := (b.session.pass b.tree).1.toOption.map fun _ =>
              (b.session.text, b.session.options)
            outcome }
          tree := (b.session.pass b.tree).2 }) := by
  obtain ⟨outcome, hcount, hrun⟩ := run_eq b
  unfold update
  rw [bind_of_ok (get_run _), if_neg (by simp [h]), bind_run, tryCatch_run, bind_run, hrun]
  cases hpass : (b.session.pass b.tree).1 with
  | error fault => exact ⟨_, hpass ▸ hcount, rfl⟩
  | ok report => exact ⟨_, hpass ▸ hcount, rfl⟩

def withText (s : Session) (text : String) : Session :=
  { s with text := if s.options.expandNames then (Symbol.expandNames? text).getD text else text }

/-- The calls by which a session is used. -/
inductive Call where
  | setText (text : String)
  | setComponents (x y z : String)
  | setOptions (options : Options)
  | edited
  | recompile

namespace Call

def step : Call → Step (Option Report)
  | setText text => changeText text
  | setComponents x y z => changeComponents x y z
  | setOptions options => changeOptions options
  | edited => update
  | recompile => renew

/-- What a call sets before the session is brought up to date. -/
def prepare (s : Session) : Call → Session
  | setText text => s.withText text
  | setComponents x y z => s.withText ("[" ++ x ++ "," ++ y ++ "," ++ z ++ "]")
  | setOptions options => { s with options }
  | edited => s
  | recompile => { s with settled := none }

theorem step_eq (c : Call) (b : Bound) :
    c.step b = update { b with session := c.prepare b.session } := by
  cases c <;> rfl

end Call

def Bound.after (b : Bound) (calls : List Call) : Bound :=
  calls.foldl (fun b c => (c.step b).2) b

def Bound.new (editor : Editor) (options : Options) : Bound := ⟨{ options }, .empty editor⟩

end Session

end FormulaGraph
