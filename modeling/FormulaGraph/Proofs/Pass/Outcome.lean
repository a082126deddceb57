import FormulaGraph.Proofs.Pass.Evaluation
import FormulaGraph.Proofs.Pass.Finish

/-!
What a whole pass over a tidy tree comes to. It begins by declaring its variables
and then succeeds if their kinds and its calls allow it; the output reads as the
lowered term. In any case it leaves a tidy tree.
-/

namespace FormulaGraph

open Run

theorem Editor.carries_boundaryType? {editor : Editor} {kind : Kind} {type : SocketType}
    (h : editor.boundaryType? kind = some type) : kind.Carries type := by
  cases editor <;> cases kind <;> cases h <;> rfl

namespace Tree

variable {t : Tree} {name : String} {s : Socket}

theorem mem_socketsOn {side : Side} (h : t.boundaryNamed? side name = some s) :
    s ∈ t.socketsOn side := by
  rw [boundaryNamed?_eq] at h
  exact List.mem_of_find?_eq_some h

theorem Grouped.mem_input (hg : t.Grouped) (h : t.boundaryNamed? .input name = some s) :
    ∃ n s', t.node? .groupInput = some n ∧ s' ∈ n.outputs ∧ s'.id = s.id ∧ s'.name = name ∧
      s'.type = s.type := by
  obtain ⟨n, hn, hout, -⟩ := hg.input
  obtain ⟨-, hname⟩ := of_boundaryNamed? h
  refine ⟨n, { s with side := .output, multiConnect := true }, hn, ?_, rfl, hname, rfl⟩
  rw [hout]
  exact List.mem_map.mpr ⟨s, mem_socketsOn h, rfl⟩

theorem Grouped.mem_output (hg : t.Grouped) (h : t.boundaryNamed? .output name = some s) :
    ∃ n s', t.node? .groupOutput = some n ∧ s' ∈ n.inputs ∧ s'.id = s.id ∧ s'.type = s.type := by
  obtain ⟨n, hn, hin, -⟩ := hg.output
  refine ⟨n, { s with side := .input, multiConnect := false }, hn, ?_, rfl, rfl⟩
  rw [hin]
  exact List.mem_map.mpr ⟨s, mem_socketsOn h, rfl⟩

end Tree

namespace Pass

variable {t : Tree} {p p' : Pass} {options : Options} {known inputs : Inputs} {names : List String}
  {counts : HandleCounts} {g : Handle} {name : String} {unknowns : List String}

/-- Handles on variables that can be told apart by their markers. -/
structure Listed (counts : HandleCounts) (inputs : Inputs) : Prop where
  numbered : ∀ e ∈ inputs, e.2.number < counts.get e.2.kind
  unique : ∀ e ∈ inputs, ∀ e' ∈ inputs, e.2.kind = e'.2.kind → e.2.number = e'.2.number →
    e.2 = e'.2

theorem Listed.cons (h : Listed counts inputs) (name : String) (hg : g.number = counts.get g.kind) :
    Listed (counts.bump g.kind) ((name, g) :: inputs) where
  numbered := by
    refine List.forall_mem_cons.mpr ⟨?_, fun e he => ?_⟩
    · rw [hg]
      exact lt_bump _ _
    · exact Nat.lt_of_lt_of_le (h.numbered e he) (le_bump _ _ _)
  unique := by
    intro e he e' he' hkind hnumber
    rcases List.mem_cons.mp he with rfl | he <;> rcases List.mem_cons.mp he' with rfl | he'
    · rfl
    · have := h.numbered e' he'
      rw [← hkind, ← hnumber, hg] at this
      exact absurd this (Nat.lt_irrefl _)
    · have := h.numbered e he
      rw [hkind, hnumber, hg] at this
      exact absurd this (Nat.lt_irrefl _)
    · exact h.unique e he e' he' hkind hnumber

theorem input_numbered {kind : Kind}
    (h : input name kind none p = (.ok g, p')) :
    g.kind = kind ∧ g.number = p.counts.get kind ∧ p'.counts = p.counts.bump kind := by
  rw [input_run] at h
  split at h
  · cases h
  · split at h
    · cases h
    · cases h
      exact ⟨rfl, rfl, rfl⟩

theorem declareInputs_listed (hk : Listed p.counts known)
    (h : declareInputs options known names p = (.ok inputs, p')) : Listed p'.counts inputs := by
  induction names generalizing known p with
  | nil =>
    cases h
    exact hk
  | cons name rest ih =>
    rw [declareInputs_cons] at h
    obtain ⟨g, p₁, hinput, h⟩ := bind_eq_ok.mp h
    obtain ⟨hkind, hnumber, hcounts⟩ := input_numbered hinput
    refine ih ?_ h
    rw [hcounts, ← hkind]
    exact hk.cons name (by rw [hnumber, hkind])

/-- A handle on the input of a name stands for the variable. -/
theorem Names.means {roster : List Handle} {h : Handle} (hs : p.tree.Sane)
    (hg : p.tree.Grouped) (hn : Names options p.tree name h) (hh : h ∈ roster) :
    Means roster p (.handle h) (.ofVariable p.tree.editor (options.kindOf name) name) := by
  obtain ⟨hkind, s, hnamed, hsocket, htype⟩ := hn
  obtain ⟨n, s', hnode, hmem, hid, rfl, hst⟩ := hg.mem_input hnamed
  have heq : Lowered.ofVariable p.tree.editor (options.kindOf s'.name) s'.name =
      .carried (options.kindOf s'.name) s.type (.variable s'.name) := by
    rw [hkind] at htype
    unfold Lowered.ofVariable
    rw [show (options.kindOf s'.name).socketType?.bind p.tree.editor.adjust? = some s.type
      from htype]
    rfl
  rw [heq]
  refine .carried (.inl hh) hkind ?_ ?_ ?_
  · rw [← hkind]
    exact Editor.carries_boundaryType? htype
  · rw [hsocket, ← hid, ← hst]
    exact hs.outputType?_eq hnode hmem
  · rw [hsocket, ← hid]
    exact .boundary hnode rfl hmem rfl

/-- A pass that has declared its variables and made nothing yet. -/
theorem orderly_start {t' : Tree} (ht : t.Tidy)
    (hr : Redrawn (t.setActive (some .groupInput)) t') (hl : Listed counts inputs)
    (hn : ∀ e ∈ inputs, e.2.node = .groupInput) :
    Orderly (inputs.map Prod.snd) { start t with tree := t', counts } := by
  have htidy : t'.Tidy := (ht.setActive _).reboundary hr
  refine ⟨sound_start ht.sane ht.grouped hr, htidy, ?_, ?_, ?_, ?_, ?_⟩
  · rintro x n y r (rfl | ⟨e, he, -⟩) hx hy hr
    · rw [Node.inputIds, htidy.source n hx] at hy
      cases hy
    · cases he
  · intro h hh
    obtain ⟨e, he, rfl⟩ := List.mem_map.mp hh
    exact hn e he
  · rintro h (hh | ⟨e, he, -⟩)
    · obtain ⟨e, he, rfl⟩ := List.mem_map.mp hh
      exact hl.numbered e he
    · cases he
  · rintro h h' (hh | ⟨e, he, -⟩) (hh' | ⟨e', he', -⟩)
    · obtain ⟨e, he, rfl⟩ := List.mem_map.mp hh
      obtain ⟨e', he', rfl⟩ := List.mem_map.mp hh'
      exact hl.unique e he e' he'
    · cases he'
    · cases he
    · cases he
  · intro e he
    cases he

structure Opens (t : Tree) (inputs : Inputs) (p : Pass) : Prop where
  start : p = { start t with tree := p.tree, counts := p.counts }
  redrawn : Redrawn (t.setActive (some .groupInput)) p.tree
  orderly : p.Orderly (inputs.map Prod.snd)

/-- The variables can be declared if their kinds have types on the boundary. -/
theorem openInputs_orderly (ht : t.Tidy)
    (hk : ∀ name ∈ unknowns, (t.editor.boundaryType? (options.kindOf name)).isSome) :
    ∃ inputs p, openInputs unknowns options (start t) = (.ok inputs, p) ∧ Opens t inputs p ∧
      InputsMean (inputs.map Prod.snd) p options inputs ∧
      ∀ name ∈ unknowns, inputs.lookup name ≠ none := by
  have hg₀ : (t.setActive (some .groupInput)).Grouped := (ht.setActive _).grouped
  obtain ⟨inputs, t₁, counts, hrun, hd⟩ :=
    declareInputs_spec (p := start t) [] (ht.sane.setActive _) hg₀ hk
  have hlisted := declareInputs_listed ⟨by simp, by simp⟩ hrun
  obtain ⟨hr, -, -, hnamed⟩ := Tree.keepInputs_spec hd.redrawn.sane hd.redrawn.grouped unknowns
  have hredrawn : Redrawn (t.setActive (some .groupInput)) (t₁.keepInputs unknowns) :=
    hd.redrawn.trans (hr.mono fun _ _ => trivial)
  have names : ∀ e ∈ inputs, Names options (t₁.keepInputs unknowns) e.1 e.2 := by
    intro e he
    rcases hd.handles e he with h | ⟨hmem, hkind, s, hs, hsocket, htype⟩
    · cases h
    · refine ⟨hkind, s, (hnamed e.1 hmem).trans hs, hsocket, ?_⟩
      rw [hr.editor]
      exact htype
  refine ⟨inputs, { start t with tree := t₁.keepInputs unknowns, counts }, ?_,
    ⟨rfl, hredrawn, orderly_start ht hredrawn hlisted ?_⟩, ?_, ?_⟩
  · unfold openInputs
    rw [bind_of_ok hrun]
    rfl
  · intro e he
    obtain ⟨-, s, -, hsocket, -⟩ := names e he
    exact congrArg SocketRef.node hsocket
  · intro n h hn
    have hmem := mem_of_lookup hn
    exact (names (n, h) hmem).means hredrawn.sane hredrawn.grouped
      (List.mem_map_of_mem (f := Prod.snd) hmem)
  · intro name hname
    exact lookup_of_declareInputs hrun (.inl hname)

/-- If they cannot be declared, the boundary may have been edited, no more. -/
theorem openInputs_fault (ht : t.Tidy)
    (hk : ∃ name ∈ unknowns, t.editor.boundaryType? (options.kindOf name) = none) :
    ∃ fault p, openInputs unknowns options (start t) = (.error fault, p) ∧
      (fault.faultClass = .type ∨ fault.faultClass = .unavailable) ∧
      Redrawn (t.setActive (some .groupInput)) p.tree := by
  obtain ⟨fault, t₁, counts, hrun, hclass, hr⟩ :=
    declareInputs_fault (p := start t) [] (ht.sane.setActive _) (ht.setActive _).grouped hk
  refine ⟨fault, { start t with tree := t₁, counts }, ?_, hclass, hr⟩
  unfold openInputs
  rw [bind_of_error hrun]

end Pass

variable {term : Term}
  {editor : Editor} {kind : Kind}

theorem SocketType.fits_self (type : SocketType) : type.fits type = true := by
  cases type <;> rfl

/-- A value of a kind fits the output for the kind. -/
theorem fits_output {dialect : Dialect} {source target : SocketType}
    (hs : kind.Carries source)
    (ht : editor.boundaryType? (Pass.outputKindFor dialect kind) = some target) :
    source.fits target = true := by
  cases hk : kind.isNumeric with
  | true =>
    refine SocketType.fits_of_numeric (hs.numeric hk) ?_
    cases editor <;> cases dialect <;> cases kind <;> cases hk <;> cases ht <;> rfl
  | false =>
    unfold Kind.Carries at hs
    rw [if_neg (by rw [hk]; simp)] at hs
    cases kind with
    | rotation | matrix =>
      cases hs
      cases editor <;> cases ht
      exact SocketType.fits_self _
    | output => cases hs
    | _ => cases hk

/-- What a term needs of the kinds of variables: that they have types on the
boundary, and that the calls of the term take them. -/
def Term.Fits (editor : Editor) (options : Options) (unknowns : List String) (term : Term) : Prop :=
  (∀ n ∈ unknowns, (editor.boundaryType? (options.kindOf n)).isSome) ∧ (term.kind? options).isSome

/-- The output of a term has a type if its variables have. -/
theorem Term.isSome_outputType {options : Options}
    (hk : term.kind? options = some kind)
    (hn : ∀ n ∈ term.occurrences, (editor.boundaryType? (options.kindOf n)).isSome) :
    (editor.boundaryType? (Pass.outputKindFor options.dialect kind)).isSome := by
  have plain : ∀ kind, kind = .scalar ∨ kind = .vector →
      (editor.boundaryType? (Pass.outputKindFor options.dialect kind)).isSome := by
    rintro kind (rfl | rfl) <;> cases editor <;> cases options.dialect <;> rfl
  match term with
  | .constant _ =>
    cases hk
    exact plain _ (.inl rfl)
  | .name n =>
    have hsome := hn n (List.mem_singleton_self n)
    cases hk
    cases hkind : options.kindOf n with
    | rotation | matrix =>
      rw [hkind] at hsome
      exact hsome
    | output =>
      rw [hkind] at hsome
      cases hsome
    | scalar | boolean => exact plain .scalar (.inl rfl)
    | vector => exact plain .vector (.inr rfl)
  | .call f args =>
    obtain ⟨kinds, -, hkind⟩ := Option.bind_eq_some_iff.mp hk
    unfold Function.kindOn? at hkind
    split at hkind
    · cases hkind
      refine plain _ ?_
      split
      · exact .inr rfl
      · exact .inl rfl
    · cases hkind

namespace Pass

variable {roster : List Handle} {p p' : Pass} {options : Options} {v : Operand} {x : Lowered}
  {t T : Tree} {s : Socket}
  {unknowns : List String}

theorem not_settled_groupOutput (hp : p.Sound) : ¬p.Settled .groupOutput :=
  fun h => not_kept_groupOutput hp (kept_of_settled hp h)

/-- A value with a meaning can be assigned to an output of the right type. -/
theorem assign_total (options : Options) (counts : HandleCounts) (target : Handle) {name : String}
    (hp : p.Orderly roster) (hv : Means roster p v x) (ho : Tree.Outward p.tree t)
    (hb : t.boundaryNamed? .output name = some s)
    (htype : t.editor.boundaryType? (outputKindFor options.dialect x.kind) = some s.type)
    (ht : target.kind = .output ∧ target.socket = ⟨.groupOutput, s.id⟩) :
    ∃ p', assign target v { p with tree := t, counts } = (.ok (), p') := by
  cases hv with
  | @carried h kind type m known kind_eq carries type_eq reads =>
    have hnot := not_settled_groupOutput hp.sound
    have hkeeps := ho.keeps p.Settled hnot
    have hsettled := known.settled hp
    rw [assign_handle ht.1, if_neg (kind_eq ▸ carries.ne_output)]
    split
    · exact ⟨_, rfl⟩
    · obtain ⟨n, hn, hfind⟩ := Option.bind_eq_some_iff.mp
        ((Tree.outputType?_of_keeps hkeeps hsettled).trans type_eq)
      obtain ⟨out, hout, rfl⟩ := Option.map_eq_some_iff.mp hfind
      obtain ⟨g, s', hg, hmem, hid, hst⟩ := ho.grouped.mem_output hb
      have hfault := Tree.linkFault?_of_closed (a := h.socket) (b := ⟨.groupOutput, s.id⟩) ho.sane
        (hp.closed.keeps hkeeps) hn (List.mem_of_find?_eq_some hout)
        (by simpa using List.find?_some hout) hg hmem hid
        (by rw [hst]; exact fits_output carries htype) hsettled hnot
      rw [edit_reconnect, ht.2, hfault]
      exact ⟨_, rfl⟩
  | number =>
    have hsocket : t.boundarySocket? target.socket.socket = some s := by
      rw [ht.2]
      exact Tree.boundarySocket?_of_mem ho.grouped.distinct (Tree.mem_of_boundaryNamed? hb)
    exact ⟨_, assign_literal (p := { p with tree := t, counts }) ht.1 hsocket
      (hasDefault_of_scalar htype) rfl⟩

/-- The end of a pass fails only if the output cannot have the type. -/
theorem finish_orderly (hp : p.Orderly roster) (hv : Means roster p v x) (options : Options) :
    match p.tree.editor.boundaryType? (outputKindFor options.dialect x.kind) with
    | none => ∃ fault, finish options v p = (.error fault, p) ∧
        (fault.faultClass = .type ∨ fault.faultClass = .unavailable)
    | some _ => ∃ r p', finish options v p = (.ok r, p') ∧ Concludes options v p r p' := by
  rw [← hv.kind_eq]
  have hspec := output_spec hp.sound.sane hp.sound.grouped options.outputName
    (outputKindFor options.dialect v.kind)
  cases htype : p.tree.editor.boundaryType? (outputKindFor options.dialect v.kind) with
  | none =>
    rw [htype] at hspec
    obtain ⟨fault, hrun, hclass⟩ := hspec
    exact ⟨fault, bind_of_error hrun, hclass⟩
  | some type =>
    rw [htype] at hspec
    obtain ⟨s, t, hb, rfl, hout, hrun⟩ := hspec
    obtain ⟨p₂, hassign⟩ := assign_total options (p.counts.bump .output)
      (p.outputHandle s.id options.outputName) hp hv hout hb
      (by rw [hout.editor, ← hv.kind_eq]; exact htype) ⟨rfl, rfl⟩
    exact finish_of_assign hp.sound (hv.ready hp) hb htype hout hrun hassign

theorem Finished.tidy (hp : p.Orderly roster) (hf : Finished options v p T) : T.Tidy := by
  refine hp.tidy.keeps hf.keeps hf.sane hf.grouped (.inl rfl) ?_ ?_
  · intro n' hn'
    obtain ⟨n, hn, -⟩ := hp.sound.grouped.output
    obtain ⟨n'', hn'', hout⟩ := hf.sink n hn
    rw [hn'] at hn''
    cases hn''
    exact ⟨n, hn, hout⟩
  · intro id n hn htag hkept
    refine absurd (.inr ?_) hkept
    rw [← Tree.id_of_node? hn]
    exact hf.tagged n (Tree.mem_of_node? hn) htag

/-- What is left after a pass reads as what its value stands for. -/
theorem Finished.reads (hp : p.Orderly roster) (hv : Means roster p v x)
    (hf : Finished options v p T) (m : Meaning) : T.ReadsOutput options.outputName m ↔
      m = x.feeding (Term.outputType p.tree.editor options.dialect x.kind) := by
  obtain ⟨s, hb, htype, hassigned⟩ := hf.socket
  have hst : Term.outputType p.tree.editor options.dialect x.kind = s.type := by
    rw [hf.editor, hv.kind_eq] at htype
    unfold Term.outputType
    rw [show (outputKindFor options.dialect x.kind).socketType?.bind p.tree.editor.adjust? =
      some s.type from htype]
    rfl
  have hreads : T.Reads (.input s) (x.feeding s.type) := by
    cases hv with
    | carried known kind_eq carries type_eq reads =>
      have hkeeps := hf.keeps.mono fun _ h => kept_of_settled hp.sound h
      have hsettled := known.settled hp
      exact .fed hassigned.2 ((Tree.outputType?_of_keeps hkeeps hsettled).trans type_eq)
        (reads.keeps hp.closed hkeeps hsettled)
    | @number y =>
      obtain ⟨hfree, -, value, hvalue, hdefault⟩ := hassigned
      cases hvalue
      have : Lowered.feeding (.number y) s.type = .stored s.default := by
        rw [hdefault]
        rfl
      rw [this]
      refine .stored ?_
      rw [Tree.sourceOf?, hfree]
      rfl
  rw [hst]
  constructor
  · rintro ⟨s', hb', hr⟩
    rw [hb] at hb'
    cases hb'
    exact hr.unique hf.sane hreads
  · rintro rfl
    exact ⟨s, hb, hreads⟩

theorem Stands.means {w : TermValue} {y : Figure} (h : Stands roster p w y) :
    Means roster p w.toOperand y.result := by
  cases h with
  | number =>
    rw [Figure.result_number]
    exact .number
  | operand means => exact means

def Ended (t : Tree) (unknowns : List String) (term : Term) (options : Options) (T : Tree) :
    Except Fault Report → Prop
  | .ok report => term.Fits t.editor options unknowns ∧
      term.kind? options = some report.resultKind ∧
      ∀ m, T.ReadsOutput options.outputName m ↔ m = term.meaning t.editor options
  | .error e =>
      (e.faultClass = .type ∨ e.faultClass = .unavailable) ∧
        (term.occurrences ⊆ unknowns → ¬term.Fits t.editor options unknowns) ∨
      ∃ n ∈ term.occurrences, n ∉ unknowns ∧ e = .unknownVariable n

/-- The stages of a pass over a tidy tree: the variables are declared, the term is
evaluated, and its value is routed to the output. -/
inductive Staged (t : Tree) (unknowns : List String) (term : Term) (options : Options) :
    Except Fault Report → Pass → Prop where
  /-- A variable cannot be declared. -/
  | undeclared {fault : Fault} {p : Pass}
      (opens : openInputs unknowns options (start t) = (.error fault, p))
      (redrawn : Redrawn (t.setActive (some .groupInput)) p.tree) :
      Staged t unknowns term options (.error fault) p
  /-- The term cannot be evaluated, or there is no output for its value. -/
  | unfinished {fault : Fault} {inputs : Inputs} {p₁ p₂ : Pass}
      (opens : openInputs unknowns options (start t) = (.ok inputs, p₁))
      (opened : Opens t inputs p₁) (orderly : p₂.Orderly (inputs.map Prod.snd))
      (adds : Extends p₁ p₂) : Staged t unknowns term options (.error fault) p₂
  | done {report : Report} {inputs : Inputs} {w : TermValue} {p₁ p₂ p₃ : Pass}
      (opens : openInputs unknowns options (start t) = (.ok inputs, p₁))
      (opened : Opens t inputs p₁)
      (evaluates : evaluate options.constantNodes inputs term p₁ = (.ok w, p₂))
      (orderly : p₂.Orderly (inputs.map Prod.snd)) (adds : Extends p₁ p₂)
      (concludes : Concludes options w.toOperand p₂ report p₃) :
      Staged t unknowns term options (.ok report) p₃

theorem Staged.tidy {r : Except Fault Report}
    (h : Staged t unknowns term options r p) (ht : t.Tidy) : p.tree.Tidy := by
  cases h with
  | undeclared _ redrawn => exact (ht.setActive _).reboundary redrawn
  | unfinished _ _ orderly => exact orderly.tidy
  | done _ _ _ orderly _ concludes => exact concludes.finished.tidy orderly

/-- The pass after its variables have been declared. -/
theorem evaluated_ends {inputs : Inputs}
    (hopen : openInputs unknowns options (start t) = (.ok inputs, p)) (hopens : Opens t inputs p)
    (hi : InputsMean (inputs.map Prod.snd) p options inputs)
    (hu : ∀ name ∈ unknowns, inputs.lookup name ≠ none)
    (hk : ∀ n ∈ unknowns, (t.editor.boundaryType? (options.kindOf n)).isSome) (hw : term.WellMade)
    (ho : ∀ f ∈ term.calls, f.offeredBy t.editor = true) :
    ∃ r p', (do
        let value ← evaluate options.constantNodes inputs term
        finish options value.toOperand : PassM Report) p = (r, p') ∧
      Staged t unknowns term options r p' ∧ Ended t unknowns term options p'.tree r := by
  have hp := hopens.orderly
  have heditor : p.tree.editor = t.editor := hopens.redrawn.editor
  obtain ⟨r, p₁, heval, hp₁, hg, hr⟩ := evaluate_ends term hp hi hw (by rwa [heditor])
  rw [heditor] at hr
  cases r with
  | error e =>
    refine ⟨.error e, p₁, bind_of_error heval, .unfinished hopen hopens hp₁ hg, ?_⟩
    rcases hr with ⟨hclass, hnone⟩ | ⟨n, hn, hlookup, rfl⟩
    · refine .inl ⟨.inl hclass, fun _ hf => ?_⟩
      have := hf.2
      rw [hnone] at this
      cases this
    · exact .inr ⟨n, hn, fun hmem => hu n hmem hlookup, rfl⟩
  | ok w =>
    obtain ⟨hstands, hkind⟩ := hr
    have hmeans := hstands.means
    rw [← Figure.kind_result] at hkind
    have hfinish := finish_orderly hp₁ hmeans options
    rw [hg.editor, heditor] at hfinish
    rw [bind_of_ok heval]
    cases htype : t.editor.boundaryType?
        (outputKindFor options.dialect (term.lower t.editor options).result.kind) with
    | none =>
      rw [htype] at hfinish
      obtain ⟨fault, hrun, hclass⟩ := hfinish
      refine ⟨.error fault, p₁, hrun, .unfinished hopen hopens hp₁ hg,
        .inl ⟨hclass, fun hsub hf => ?_⟩⟩
      have := Term.isSome_outputType hkind fun n hn => hf.1 n (hsub hn)
      rw [htype] at this
      cases this
    | some type =>
      rw [htype] at hfinish
      obtain ⟨report, p₂, hrun, hc⟩ := hfinish
      refine ⟨.ok report, p₂, hrun, .done hopen hopens heval hp₁ hg hc,
        ⟨hk, by rw [hkind]; rfl⟩, by rw [hkind, hc.resultKind, hmeans.kind_eq], ?_⟩
      intro m
      rw [hc.finished.reads hp₁ hmeans, hg.editor, heditor]
      rfl

/-- A pass over a tidy tree goes through its stages, and ends as the term asks. -/
theorem synthesis_ends (ht : t.Tidy) (hw : term.WellMade)
    (ho : ∀ f ∈ term.calls, f.offeredBy t.editor = true) (unknowns : List String)
    (options : Options) : ∃ r p', synthesis unknowns term options (start t) = (r, p') ∧
      Staged t unknowns term options r p' ∧ Ended t unknowns term options p'.tree r := by
  rw [synthesis_eq]
  by_cases hk : ∀ n ∈ unknowns, (t.editor.boundaryType? (options.kindOf n)).isSome
  · obtain ⟨inputs, p, hopen, hopens, hi, hu⟩ := openInputs_orderly ht hk
    rw [bind_of_ok hopen]
    exact evaluated_ends hopen hopens hi hu hk hw ho
  · have hnone : ∃ n ∈ unknowns, t.editor.boundaryType? (options.kindOf n) = none := by
      simpa using hk
    obtain ⟨fault, p, hopen, hclass, hredrawn⟩ := openInputs_fault ht hnone
    exact ⟨.error fault, p, bind_of_error hopen, .undeclared hopen hredrawn,
      .inl ⟨hclass, fun _ hf => hk hf.1⟩⟩

end Pass

end FormulaGraph
