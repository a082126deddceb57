import FormulaGraph.Proofs.History
import FormulaGraph.Proofs.Pass.Recall
import FormulaGraph.Proofs.Pass.Tandem

/-!
Sharing within a pass. Equal parts of a term get the same value, and parts that
get the same value stand for the same operation: the tag of a function and its
operands never takes one computation for another. The first holds because a pass
finds in its books what it has evaluated before. For the second the pass is
mirrored on a new tree, where handles mean what they compute, and the books are
the same.
-/

namespace FormulaGraph

open Run

variable {args : List Term} {v : TermValue} {f : Function} {t : Term} {q p' : Pass}

namespace Term

/-- A term within another one, or that one itself. -/
inductive Part (s : Term) : Term → Prop
  | self : Part s s
  | argument {f : Function} {args : List Term} {t : Term} (mem : t ∈ args) (part : Part s t) :
      Part s (.call f args)

theorem wellMade_of_mem (h : WellMadeAll args) (ht : t ∈ args) : t.WellMade := by
  induction args with
  | nil => cases ht
  | cons a rest ih =>
    rcases List.mem_cons.mp ht with rfl | ht
    · exact h.1
    · exact ih h.2 ht

theorem mem_callsAll (ht : t ∈ args) (hf : f ∈ t.calls) : f ∈ callsAll args := by
  induction args with
  | nil => cases ht
  | cons a rest ih =>
    rw [callsAll]
    rcases List.mem_cons.mp ht with rfl | ht
    · exact List.mem_append_left _ hf
    · exact List.mem_append_right _ (ih ht)

namespace Part

variable {s t : Term}

theorem wellMade (h : s.Part t) (ht : t.WellMade) : s.WellMade := by
  induction h with
  | self => exact ht
  | argument mem _ ih => exact ih (wellMade_of_mem ht.2 mem)

theorem calls_subset (h : s.Part t) : s.calls ⊆ t.calls := by
  induction h with
  | self => exact List.Subset.refl _
  | argument mem _ ih =>
    intro f hf
    rw [calls]
    exact List.mem_cons_of_mem _ (mem_callsAll mem (ih hf))

end Part

end Term

namespace Pass

variable {p : Pass} {s : Term} {inputs inputs' : Inputs} {options : Options} {constantNodes : Bool}

mutual

/-- Evaluating a term from a state on, a part of it has been given a value. -/
inductive Visits (constantNodes : Bool) (inputs : Inputs) : Term → Pass → Term → TermValue → Prop
  | whole {t : Term} {p p' : Pass} {v : TermValue}
      (run : evaluate constantNodes inputs t p = (.ok v, p')) :
      Visits constantNodes inputs t p t v
  | argument {f : Function} {args : List Term} {p : Pass} {s : Term} {v : TermValue}
      (visits : VisitsAll constantNodes inputs args p s v) :
      Visits constantNodes inputs (.call f args) p s v

inductive VisitsAll (constantNodes : Bool) (inputs : Inputs) :
    List Term → Pass → Term → TermValue → Prop
  | first {t : Term} {rest : List Term} {p : Pass} {s : Term} {v : TermValue}
      (visits : Visits constantNodes inputs t p s v) :
      VisitsAll constantNodes inputs (t :: rest) p s v
  | later {t : Term} {rest : List Term} {p p' : Pass} {s : Term} {v w : TermValue}
      (run : evaluate constantNodes inputs t p = (.ok w, p'))
      (visits : VisitsAll constantNodes inputs rest p' s v) :
      VisitsAll constantNodes inputs (t :: rest) p s v

end

section Visits

variable {values : List TermValue}

theorem evaluate_call_cases (h : evaluate constantNodes inputs (.call f args) p = (.ok v, p')) :
    ∃ values p₁, evaluateAll constantNodes inputs args p = (.ok values, p₁) ∧
      Remembers p₁ p' := by
  unfold evaluate at h
  obtain ⟨values, p₁, hargs, hcall⟩ := bind_eq_ok.mp h
  refine ⟨values, p₁, hargs, ?_⟩
  cases hfold : foldedTerm? f values with
  | some x =>
    rw [hfold] at hcall
    cases hcall
    exact .refl
  | none =>
    rw [hfold] at hcall
    obtain ⟨os, p₂, hmade, hcalled⟩ := bind_eq_ok.mp hcall
    obtain ⟨o, p₃, happlied, hret⟩ := bind_eq_ok.mp hcalled
    cases hret
    exact (compositional_remembers.materializeAll _ _ _ _ _ hmade).trans
      (compositional_remembers.call (fun _ _ _ => Leaves.throw _) _ _ _ happlied)

theorem evaluateAll_cons_cases {rest : List Term}
    (h : evaluateAll constantNodes inputs (t :: rest) p = (.ok values, p')) :
    ∃ v more p₁, evaluate constantNodes inputs t p = (.ok v, p₁) ∧
      evaluateAll constantNodes inputs rest p₁ = (.ok more, p') := by
  unfold evaluateAll at h
  obtain ⟨v, p₁, hfirst, hrest⟩ := bind_eq_ok.mp h
  obtain ⟨more, p₂, hmore, hret⟩ := bind_eq_ok.mp hrest
  cases hret
  exact ⟨v, more, p₁, hfirst, hmore⟩

mutual

/-- A part that has been visited has its value for good. -/
theorem Visits.recalls {t s : Term} {p p' : Pass} {u v : TermValue} (h : Visits true inputs t p s v)
    (hrun : evaluate true inputs t p = (.ok u, p')) :
    s.Part t ∧ Recalls (evaluate true inputs s) v p' := by
  match h with
  | .whole run =>
    cases hrun.symm.trans run
    exact ⟨.self, (evaluate_recalls _ run).2⟩
  | .argument visits =>
    obtain ⟨values, p₁, hargs, hlater⟩ := evaluate_call_cases hrun
    obtain ⟨⟨a, hmem, hpart⟩, hrecalls⟩ := visits.recalls hargs
    exact ⟨.argument hmem hpart, hrecalls.mono hlater⟩

theorem VisitsAll.recalls {ts : List Term} {s : Term} {p p' : Pass} {us : List TermValue}
    {v : TermValue} (h : VisitsAll true inputs ts p s v)
    (hrun : evaluateAll true inputs ts p = (.ok us, p')) :
    (∃ t ∈ ts, s.Part t) ∧ Recalls (evaluate true inputs s) v p' := by
  match h with
  | .first visits =>
    obtain ⟨w, more, p₁, hfirst, hmore⟩ := evaluateAll_cons_cases hrun
    obtain ⟨hpart, hrecalls⟩ := visits.recalls hfirst
    exact ⟨⟨_, List.mem_cons_self, hpart⟩,
      hrecalls.mono (compositional_remembers.evaluateAll Leaves.throw _ _ _ _ _ _ hmore)⟩
  | .later run visits =>
    obtain ⟨w, more, p₁, hfirst, hmore⟩ := evaluateAll_cons_cases hrun
    cases hfirst.symm.trans run
    obtain ⟨⟨t, hmem, hpart⟩, hrecalls⟩ := visits.recalls hmore
    exact ⟨⟨t, List.mem_cons_of_mem _ hmem, hpart⟩, hrecalls⟩

end

theorem exists_visitsAll (hmem : t ∈ args)
    (ht : ∀ {p p' v}, evaluate constantNodes inputs t p = (.ok v, p') →
      ∃ w, Visits constantNodes inputs t p s w)
    (hrun : evaluateAll constantNodes inputs args p = (.ok values, p')) :
    ∃ w, VisitsAll constantNodes inputs args p s w := by
  induction args generalizing p values with
  | nil => cases hmem
  | cons a rest ih =>
    obtain ⟨v, more, p₁, hfirst, hmore⟩ := evaluateAll_cons_cases hrun
    rcases List.mem_cons.mp hmem with rfl | hmem
    · obtain ⟨w, hw⟩ := ht hfirst
      exact ⟨w, .first hw⟩
    · obtain ⟨w, hw⟩ := ih hmem hmore
      exact ⟨w, .later hfirst hw⟩

/-- Every part of a term is visited. -/
theorem exists_visits (h : s.Part t) (hrun : evaluate constantNodes inputs t p = (.ok v, p')) :
    ∃ w, Visits constantNodes inputs t p s w := by
  induction h generalizing p p' v with
  | self => exact ⟨v, .whole hrun⟩
  | argument mem _ ih =>
    obtain ⟨values, p₁, hargs, -⟩ := evaluate_call_cases hrun
    obtain ⟨w, hw⟩ := exists_visitsAll mem ih hargs
    exact ⟨w, .argument hw⟩

end Visits

section Mirrored

variable {roster : List Handle} {X : Pass → Pass → Prop}

theorem Ends.of_ok {α : Type} {m : PassM α} {Q : α → Pass → Prop} {E : Fault → Prop} {a : α}
    (h : Ends roster m p Q E) (hrun : m p = (.ok a, p')) :
    p'.Orderly roster ∧ Extends p p' ∧ Q a p' := by
  obtain ⟨r, q, hm, hq, hg, hr⟩ := h
  cases hrun.symm.trans hm
  exact ⟨hq, hg, hr⟩

theorem Pairing.Values.stands_unique {w w' : TermValue} {x x' : Figure} (hv : loose.Values v w)
    (hv' : loose.Values v w') (hq : q.Orderly roster) (hw : Stands roster q w x)
    (hw' : Stands roster q w' x') : x = x' := by
  cases hv with
  | number y =>
    cases hv'
    cases hw
    cases hw'
    rfl
  | operand ho =>
    cases hv' with
    | operand ho' =>
      cases hw with
      | operand means =>
        cases hw' with
        | operand means' =>
          cases ho with
          | handle hh =>
            cases ho' with
            | handle hh' =>
              obtain rfl := hq.unique _ _ means.known means'.known
                (hh.kind.trans hh'.kind.symm) (hh.number.trans hh'.number.symm)
              rw [means.unique hq.tidy.sane means']

/-- A call that goes through in one pass goes through in an orderly one that is
alike. -/
theorem call_mirrored {os : List Operand} {zs : List (Operand × Lowered)} {o : Operand}
    (ha : Alike X p q) (hq : q.Orderly roster) (hz : ∀ z ∈ zs, Means roster q z.1 z.2)
    (hos : List.Forall₂ loose.Operands os (zs.map Prod.fst))
    (hn : f.signature.fault? zs.length = none) (ho : f.offeredBy q.tree.editor = true)
    (hf : folded? f (zs.map Prod.fst) = none) (hrun : call f os p = (.ok o, p')) :
    ∃ o' q', call f (zs.map Prod.fst) q = (.ok o', q') := by
  obtain ⟨r, q', hcall, -, -, hr⟩ := call_ends hq hz hn ho hf
  cases r with
  | ok o' => exact ⟨o', q', hcall⟩
  | error e =>
    obtain ⟨-, hnone⟩ := hr
    obtain ⟨_, _, ⟨⟩, hfault⟩ := bind_eq_ok.mp hrun
    have hfree : callFault? p.tree.editor f os = none := by
      cases hc : callFault? p.tree.editor f os with
      | none => rfl
      | some fault =>
        rw [hc] at hfault
        cases hfault
    rw [← ha.editor, ← Pairing.callFault?_congr _ f (Pairing.kinds_related hos)] at hfree
    unfold callFault? at hfree
    rw [List.length_map, hn] at hfree
    dsimp only at hfree
    rw [ho] at hfree
    have htakes := kindFault?_eq_none_iff.mp hfree
    have hkinds : (zs.map Prod.fst).map (·.kind) = zs.map (·.2.kind) := by
      rw [List.map_map]
      exact List.map_congr_left fun z hz' => (hz z hz').kind_eq
    rw [hkinds] at htakes
    rw [Function.kindOn?, if_pos htakes] at hnone
    cases hnone

variable (hx : Companion X) (hi : List.Forall₂ loose.InputEntries inputs inputs')
include hx hi

mutual

/-- A term that can be evaluated in one pass can be in an orderly one that is
alike. -/
theorem evaluate_mirrored (term : Term) {p p' q : Pass} {v : TermValue} (ha : Alike X p q)
    (hq : q.Orderly roster) (hm : InputsMean roster q options inputs') (hw : term.WellMade)
    (ho : ∀ f ∈ term.calls, f.offeredBy q.tree.editor = true)
    (hrun : evaluate options.constantNodes inputs term p = (.ok v, p')) :
    ∃ w q', evaluate options.constantNodes inputs' term q = (.ok w, q') := by
  match term with
  | .constant x =>
    unfold evaluate
    exact ⟨_, q, rfl⟩
  | .name n =>
    unfold evaluate at hrun ⊢
    rcases rel_cases (Pairing.lookup_related hi n) with ⟨hl, -⟩ | ⟨h, h', -, hl', -⟩
    · rw [hl] at hrun
      cases hrun
    · rw [hl']
      exact ⟨_, q, rfl⟩
  | .call f args =>
    have hargs := evaluateAll_ends args hq hm hw.2 fun g hg => ho g (List.mem_cons_of_mem _ hg)
    unfold evaluate at hrun ⊢
    obtain ⟨values, p₁, hrunArgs, hcall⟩ := bind_eq_ok.mp hrun
    obtain ⟨values', q₁, hrunArgs'⟩ := evaluateAll_mirrored args ha hq hm hw.2
      (fun g hg => ho g (List.mem_cons_of_mem _ hg)) hrunArgs
    obtain ⟨hvalues, ha₁⟩ := hx.lockstep.evaluateAll hi _ args p q ha _ _ _ _ hrunArgs hrunArgs'
    obtain ⟨hq₁, hg₁, vs, rfl, hsnd, hvs, -⟩ := hargs.of_ok hrunArgs'
    rw [bind_of_ok hrunArgs', Pairing.foldedTerm?_related f hvalues]
    cases hfold : foldedTerm? f values with
    | some x => exact ⟨_, q₁, rfl⟩
    | none =>
      rw [hfold] at hcall
      obtain ⟨os, p₂, hmade, hcalled⟩ := bind_eq_ok.mp hcall
      obtain ⟨o, p₃, happlied, -⟩ := bind_eq_ok.mp hcalled
      have hgives := @materializeAll_gives _ options.constantNodes _ _ hq₁ hvs
      obtain ⟨os', q₂, hmade', hq₂, hg₂, zs, rfl, hzs, hz⟩ := hgives
      obtain ⟨hos, ha₂⟩ := hx.lockstep.materializeAll _ hvalues p₁ q₁ ha₁ _ _ _ _ hmade hmade'
      have hlen : vs.length = args.length := by
        rw [← length_lowerAll q.tree.editor options args, ← hsnd, List.length_map]
      have hlen' : zs.length = vs.length := by simpa using congrArg List.length hzs
      have hnone : Figure.folded? f (vs.map Prod.snd) = none := by
        rw [← foldedTerm?_eq hvs, Pairing.foldedTerm?_related f hvalues, hfold]
      have harity : f.signature.fault? vs.length = none := by
        rw [hlen]
        exact hw.1
      obtain ⟨o', q₃, happlied'⟩ := call_mirrored ha₂ hq₂ hz hos (by rwa [hlen'])
        (by rw [hg₂.editor, hg₁.editor]; exact ho f List.mem_cons_self)
        (folded?_operands harity hvs hnone hzs hz) happlied
      refine ⟨.operand o', q₃, ?_⟩
      dsimp only
      rw [bind_of_ok hmade', bind_of_ok happlied']
      rfl

theorem evaluateAll_mirrored (terms : List Term) {p p' q : Pass} {values : List TermValue}
    (ha : Alike X p q) (hq : q.Orderly roster) (hm : InputsMean roster q options inputs')
    (hw : Term.WellMadeAll terms)
    (ho : ∀ f ∈ Term.callsAll terms, f.offeredBy q.tree.editor = true)
    (hrun : evaluateAll options.constantNodes inputs terms p = (.ok values, p')) :
    ∃ values' q', evaluateAll options.constantNodes inputs' terms q = (.ok values', q') := by
  match terms with
  | [] =>
    unfold evaluateAll
    exact ⟨_, q, rfl⟩
  | t :: rest =>
    obtain ⟨v, more, p₁, hfirst, hmore⟩ := evaluateAll_cons_cases hrun
    have hoffered := fun f hf => ho f (List.mem_append_left _ hf)
    obtain ⟨w, q₁, hfirst'⟩ := evaluate_mirrored t ha hq hm hw.1 hoffered hfirst
    obtain ⟨-, ha₁⟩ := hx.lockstep.evaluate hi _ t p q ha _ _ _ _ hfirst hfirst'
    obtain ⟨hq₁, hg₁, -⟩ := (evaluate_ends t hq hm hw.1 hoffered).of_ok hfirst'
    obtain ⟨values', q₂, hmore'⟩ := evaluateAll_mirrored rest ha₁ hq₁
      (hm.grows hq hg₁.toGrows) hw.2
      (fun f hf => by rw [hg₁.editor]; exact ho f (List.mem_append_right _ hf)) hmore
    unfold evaluateAll
    rw [bind_of_ok hfirst', bind_of_ok hmore']
    exact ⟨_, q₂, rfl⟩

end

/-- Terms that give the same value at one point of a pass are lowered to the
same. -/
theorem lower_eq_of_value {s' : Term} (ha : Alike X p q) (hq : q.Orderly roster)
    (hm : InputsMean roster q options inputs') (hw : s.WellMade)
    (ho : ∀ f ∈ s.calls, f.offeredBy q.tree.editor = true)
    (hrun : evaluate options.constantNodes inputs s p = (.ok v, p)) (hw' : s'.WellMade)
    (ho' : ∀ f ∈ s'.calls, f.offeredBy q.tree.editor = true)
    (hrun' : evaluate options.constantNodes inputs s' p = (.ok v, p)) :
    s.lower q.tree.editor options = s'.lower q.tree.editor options := by
  obtain ⟨w, q₁, hmirror⟩ := evaluate_mirrored hx hi s ha hq hm hw ho hrun
  obtain ⟨hv, ha₁⟩ := hx.lockstep.evaluate hi _ s p q ha _ _ _ _ hrun hmirror
  obtain ⟨hq₁, hg₁, hstands, -⟩ := (evaluate_ends s hq hm hw ho).of_ok hmirror
  have hm₁ := hm.grows hq hg₁.toGrows
  have ho₁ : ∀ f ∈ s'.calls, f.offeredBy q₁.tree.editor = true := by rwa [hg₁.editor]
  obtain ⟨w', q₂, hmirror'⟩ := evaluate_mirrored hx hi s' ha₁ hq₁ hm₁ hw' ho₁ hrun'
  obtain ⟨hv', -⟩ := hx.lockstep.evaluate hi _ s' p q₁ ha₁ _ _ _ _ hrun' hmirror'
  obtain ⟨hq₂, hg₂, hstands', -⟩ := (evaluate_ends s' hq₁ hm₁ hw' ho₁).of_ok hmirror'
  rw [← hg₁.editor] at hstands ⊢
  exact hv.stands_unique hv' hq₂ (hstands.grows hq₁ hg₂.toGrows) hstands'

end Mirrored

end Pass

namespace Tree

variable {t' : Tree} {unknowns : List String} {term : Term} {options : Options} {report : Report}

theorem realize_cases {t : Tree} (h : realize unknowns term options t = (.ok report, t')) :
    (∀ f ∈ term.calls, f.offeredBy t.editor = true) ∧ ∃ inputs v p₁ p₂,
      Pass.openInputs unknowns options (Pass.start t) = (.ok inputs, p₁) ∧
      Pass.evaluate options.constantNodes inputs term p₁ = (.ok v, p₂) := by
  rw [realize_run] at h
  cases hu : term.unavailable? t.editor with
  | some f =>
    rw [hu] at h
    cases h
  | none =>
    rw [hu] at h
    dsimp only at h
    rcases hrun : Pass.synthesis unknowns term options (Pass.start t) with ⟨r | r, p⟩
    · rw [hrun] at h
      cases h
    · rw [Pass.synthesis_eq] at hrun
      obtain ⟨inputs, p₁, hopen, hrest⟩ := bind_eq_ok.mp hrun
      obtain ⟨v, p₂, heval, -⟩ := bind_eq_ok.mp hrest
      exact ⟨Term.unavailable?_eq_none_iff.mp hu, inputs, v, p₁, p₂, hopen, heval⟩

/-- In a pass that succeeds with constants as nodes, every part of the term has
one value, wherever it occurs, and parts with the same value, be it a handle or
a number, are lowered to the same operations. -/
theorem realize_shares {t : Tree} (hw : term.WellMade) (hc : options.constantNodes = true)
    (h : realize unknowns term options t = (.ok report, t')) :
    ∃ inputs p, Pass.openInputs unknowns options (Pass.start t) = (.ok inputs, p) ∧
      (∀ s, s.Part term → ∃ v, ∀ w,
        Pass.Visits options.constantNodes inputs term p s w ↔ w = v) ∧
      ∀ s s' v, Pass.Visits options.constantNodes inputs term p s v →
        Pass.Visits options.constantNodes inputs term p s' v →
        s.lower t.editor options = s'.lower t.editor options := by
  obtain ⟨ho, inputs, u, p₁, p₂, hopen, heval⟩ := realize_cases h
  have hrun : Pass.evaluate true inputs term p₁ = (.ok u, p₂) := by rw [← hc, heval]
  refine ⟨inputs, p₁, hopen, fun s hs => ?_, fun s s' v hv hv' => ?_⟩
  · obtain ⟨v, hv⟩ := Pass.exists_visits hs heval
    refine ⟨v, fun w => ⟨fun hw => ?_, fun hw => hw ▸ hv⟩⟩
    rw [hc] at hv hw
    -- both values are had again where the pass ends
    cases (((hv.recalls hrun).2 p₂ .refl).symm.trans ((hw.recalls hrun).2 p₂ .refl))
    rfl
  · rw [hc] at hv hv'
    obtain ⟨hpart, hrecalls⟩ := hv.recalls hrun
    obtain ⟨hpart', hrecalls'⟩ := hv'.recalls hrun
    obtain ⟨heditor, htypes⟩ := Pass.boundaryType?_of_openInputs hopen
    obtain ⟨inputs', q₁, hopen', hopens, hm, -⟩ :=
      Pass.openInputs_orderly (tidy_empty t.editor) htypes
    have hstart : Pass.Alike (fun _ _ => True) (Pass.start t) (Pass.start (empty t.editor)) :=
      ⟨rfl, rfl, rfl, .nil, trivial⟩
    obtain ⟨hi, ha₁⟩ := Pass.tandem_openInputs unknowns options _ _ hstart _ _ _ _ hopen hopen'
    have hq₁ : q₁.tree.editor = t.editor := hopens.redrawn.editor
    have ho₁ : ∀ f ∈ term.calls, f.offeredBy q₁.tree.editor = true := by rwa [hq₁]
    obtain ⟨u', q₂, heval'⟩ :=
      Pass.evaluate_mirrored Pass.companion_true hi term ha₁ hopens.orderly hm hw ho₁ heval
    obtain ⟨-, ha₂⟩ :=
      Pass.companion_true.lockstep.evaluate hi _ term _ _ ha₁ _ _ _ _ heval heval'
    obtain ⟨hq₂, hg, -⟩ := (Pass.evaluate_ends term hopens.orderly hm hw ho₁).of_ok heval'
    have heditor₂ : q₂.tree.editor = t.editor := hg.editor.trans hq₁
    have offered : ∀ {s : Term}, s.Part term → ∀ f ∈ s.calls, f.offeredBy q₂.tree.editor = true :=
      fun hs f hf => by
        rw [heditor₂]
        exact ho f (hs.calls_subset hf)
    rw [← heditor₂]
    refine Pass.lower_eq_of_value (v := v) Pass.companion_true hi ha₂ hq₂
      (hm.grows hopens.orderly hg.toGrows) (hpart.wellMade hw) (offered hpart) ?_
      (hpart'.wellMade hw) (offered hpart') ?_
    · rw [hc]
      exact hrecalls p₂ .refl
    · rw [hc]
      exact hrecalls' p₂ .refl

theorem realize_shares_repeated :
    ∃ t report t' sum term, t = (compile "a+2*b" {} (empty .geometry)).2 ∧
      sum = .call .add [.name "a", .constant 2] ∧
      term = .call .mult [.call .sin [sum], sum] ∧
      realize ["a"] term {} t = (.ok report, t') ∧
      ∃ inputs p, Pass.openInputs ["a"] {} (Pass.start t) = (.ok inputs, p) ∧
        ∃ v, ∀ w, Pass.Visits true inputs term p sum w ↔ w = v := by
  let sum : Term := .call .add [.name "a", .constant 2]
  let term : Term := .call .mult [.call .sin [sum], sum]
  let t := (compile "a+2*b" {} (empty .geometry)).2
  have hw : term.WellMade := by
    have : sum.WellMade := ⟨rfl, trivial, show (2 : Numeric.Double).magnitude ≤ _ by decide,
      trivial⟩
    exact ⟨rfl, ⟨rfl, this, trivial⟩, this, trivial⟩
  have hok : ((realize ["a"] term {} t).1.map fun _ => ()) = .ok () := by decide +kernel
  rcases hr : realize ["a"] term {} t with ⟨r | report, t'⟩
  · rw [hr] at hok
    cases hok
  · obtain ⟨inputs, p, hopen, hshares, -⟩ := realize_shares hw rfl hr
    exact ⟨t, report, t', sum, term, rfl, rfl, rfl, hr, inputs, p, hopen,
      hshares sum (.argument (List.mem_cons_of_mem _ List.mem_cons_self) .self)⟩

end Tree

end FormulaGraph
