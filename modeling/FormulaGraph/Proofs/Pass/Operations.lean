import FormulaGraph.Proofs.Pass.Storing

/-!
The operations of a pass as moves. An operation that finds fault with its
operands has not edited the tree by then, but for the default of an input: it
is looked at when the input is there.
-/

namespace FormulaGraph

open Run Relation

def Operand.handles : Operand → List Handle
  | handle h => [h]
  | literal _ => []

theorem Operand.mem_handles {o : Operand} {h : Handle} : h ∈ o.handles ↔ o = .handle h := by
  cases o <;> simp [handles, eq_comm]

namespace Pass

variable {roster : List Handle} {scope : Scope} {p q : Pass} {α : Type} {m : PassM α}
  {Q : α → Pass → Prop} {f : Function} {args : List Operand}

/-- A computation that finds no fault with its operands once the tree is another
one. -/
abbrev Careful (roster : List Handle) (scope : Scope) (t : Tree) {α : Type} (m : PassM α)
    (p : Pass) (Q : α → Pass → Prop) : Prop :=
  Behaves roster scope m p Q fun fault q => fault.rejects = true → q.tree = t

theorem Proceeds.careful (h : Proceeds roster scope m p Q) (t : Tree) :
    Careful roster scope t m p Q := by
  refine Behaves.weaken h fun fault q hf hr => ?_
  rw [hf] at hr
  cases hr

section Checks

theorem careful_requireVector (use : VectorUse) (v : Handle) :
    Careful roster scope p.tree (requireVector use v) p fun _ q => q = p ∧ v.kind = .vector := by
  unfold requireVector
  split
  · next hv => exact .pure ⟨rfl, hv⟩
  · exact .throw fun _ => rfl

theorem careful_requireComponent (value : Operand) :
    Careful roster scope p.tree (requireComponent value) p
      fun _ q => q = p ∧ value.kind.isScalarLike = true := by
  unfold requireComponent
  split
  · next hv => exact .pure ⟨rfl, hv⟩
  · exact .throw fun _ => rfl

theorem careful_axis (index : Int) :
    Careful roster scope p.tree (axis index) p fun _ q => q = p := by
  unfold axis
  split
  · exact .pure rfl
  · split
    · exact .pure rfl
    · split
      · exact .pure rfl
      · exact .throw fun _ => rfl

def Update.values (u : Update) : List Operand := u.x.toList ++ u.y.toList ++ u.z.toList

theorem Update.mem_values_put {u : Update} {axis : Axis} {value o : Operand}
    (h : o ∈ (u.put axis value).values) : o = value ∨ o ∈ u.values := by
  cases axis <;>
    simp only [put, values, List.mem_append, Option.mem_toList, Option.some.injEq] at h ⊢
    <;> grind

theorem careful_collect (u : Update) (updates : List (Int × Operand)) :
    Careful roster scope p.tree (collect u updates) p fun r q => q = p ∧
      ∀ o ∈ r.values, o ∈ u.values ∨ (∃ i, (i, o) ∈ updates) ∧ o.kind.isScalarLike = true := by
  induction updates generalizing u with
  | nil => exact .pure ⟨rfl, fun o ho => .inl ho⟩
  | cons entry rest ih =>
    obtain ⟨index, value⟩ := entry
    refine (careful_axis index).bind fun axis q _ hq => ?_
    subst hq
    refine (careful_requireComponent value).bind fun _ q _ hq => ?_
    obtain ⟨rfl, hscalar⟩ := hq
    refine (ih (u.put axis value)).mono fun r q _ ⟨hq, hr⟩ => ⟨hq, fun o ho => ?_⟩
    rcases hr o ho with hput | ⟨⟨i, hi⟩, hk⟩
    · rcases Update.mem_values_put hput with rfl | hold
      · exact .inr ⟨⟨index, List.mem_cons_self⟩, hscalar⟩
      · exact .inl hold
    · exact .inr ⟨⟨i, List.mem_cons_of_mem _ hi⟩, hk⟩

theorem careful_requireComponents (values : List Operand) :
    Careful roster scope p.tree (requireComponents values) p fun _ q => q = p := by
  induction values with
  | nil => exact .pure rfl
  | cons value rest ih =>
    refine (careful_requireComponent value).bind fun _ q _ hq => ?_
    obtain ⟨rfl, -⟩ := hq
    exact ih

end Checks

section Calls

variable {v : Handle}

theorem Parts.given {tag : String} {parts : Handle × Handle × Handle} (h : Parts tag p parts) :
    ∀ g ∈ [parts.1, parts.2.1, parts.2.2], Given p g :=
  fun g hg => ⟨⟨_, mem_of_lookup h.1, hg⟩, by rw [h.2 g hg]; rfl⟩

theorem isNumeric_of_scalarLike {kind : Kind} (h : kind.isScalarLike = true) :
    kind.isNumeric = true := by
  cases kind <;> first | rfl | cases h

theorem careful_call (hscope : scope.Calls) (hk : ∀ g, .handle g ∈ args → Known roster p g) :
    Careful roster scope p.tree (call f args) p fun o q => ∀ g ∈ o.handles, Given q g := by
  refine .ofTree ?_
  cases hfault : callFault? p.tree.editor f args with
  | some fault => exact .throw fun _ => rfl
  | none =>
    dsimp only
    cases folded? f args with
    | some x => exact .pure (by simp [Operand.handles, Operand.scalar])
    | none =>
      refine (Proceeds.careful (proceeds_apply hscope hfault hk) _).bind fun h q _ hg => .pure ?_
      simpa [Operand.handles] using hg

variable (hscope : scope.Splices)

include hscope

theorem proceeds_components (hv : v.kind = .vector) (hk : Known roster p v) :
    Proceeds roster scope (components v) p fun parts q =>
      Parts (Tag.operation "sepaxyz" (markers p.literals [.handle v]).1) q parts := by
  have hrun : components v p = separate (.handle v) p := by
    unfold components requireVector
    rw [if_pos hv]
    rfl
  exact .congr hrun (proceeds_separate hscope.separate (.of_handle hk (by rw [hv]; rfl)))

theorem careful_components (hk : Known roster p v) :
    Careful roster scope p.tree (components v) p fun parts q =>
      Parts (Tag.operation "sepaxyz" (markers p.literals [.handle v]).1) q parts := by
  by_cases hv : v.kind = .vector
  · exact Proceeds.careful (proceeds_components hscope hv hk) _
  · have hrun : components v p = (throw (.notAVector .access v.kind) : PassM _) p := by
      unfold components requireVector
      rw [if_neg hv]
      rfl
    exact .congr hrun (.throw fun _ => rfl)

theorem careful_component {index : Int} (hk : Known roster p v) :
    Careful roster scope p.tree (component v index) p fun h q => Given q h := by
  refine (careful_requireVector _ v).bind fun _ q _ hq => ?_
  obtain ⟨rfl, hv⟩ := hq
  refine (careful_axis index).bind fun axis q' _ hq => ?_
  subst hq
  refine (Proceeds.careful (proceeds_components hscope hv hk) _).bind fun parts r _ hparts => ?_
  refine .pure (hparts.given _ ?_)
  cases axis <;> simp

/-- A vector is put together again once its components are checked. -/
theorem proceeds_replace {update : Update} {frameTag : String} (hv : Usable roster p (.handle v))
    (hu : ∀ o ∈ update.values, Usable roster p o) :
    Proceeds roster scope (do
      let (combined, separated) ← match update.x, update.y, update.z with
        | some x, some y, some z => do Pure.pure (← combine x y z, [])
        | _, _, _ => do
          let (x, y, z) ← separate (.handle v)
          let combined ← combine (update.x.getD (.handle x)) (update.y.getD (.handle y))
            (update.z.getD (.handle z))
          Pure.pure (combined, [x.node])
      frame frameTag "Vector Mutation" (separated ++ [combined.node])
      return combined) p fun h q => Given q h := by
  have framed : ∀ {r : Pass} {members : List NodeId} {combined : Handle}, Given r combined →
      Proceeds roster scope (do frame frameTag "Vector Mutation" members; return combined) r
        fun h q => Given q h := fun hr =>
    (proceeds_frame hscope.frame _ _ _).bind fun _ _ hg _ => .pure (hr.mono hg)
  have hread : ∀ {r : Pass} {o : Option Operand} {h : Handle}, Gains p r →
      o.toList ⊆ update.values → Given r h → Usable roster r (o.getD (.handle h)) := by
    intro r o h hg ho hh
    cases o with
    | none => exact hh.usable
    | some o => exact (hu o (ho (by simp))).gains hg
  split
  next x y z hx hy hz =>
    have hvalues : update.values = [x, y, z] := by simp [Update.values, hx, hy, hz]
    refine (proceeds_combine hscope.combine (hvalues ▸ hu)).bind fun combined r _ hc => ?_
    exact framed hc
  next =>
    refine (proceeds_separate hscope.separate hv).bind fun parts r hg hparts => ?_
    have hgiven := hparts.given
    simp only [List.forall_mem_cons] at hgiven
    refine (proceeds_combine hscope.combine ?_).bind fun combined r' _ hc => framed hc
    simp only [List.forall_mem_cons]
    refine ⟨hread hg ?_ hgiven.1, hread hg ?_ hgiven.2.1, hread hg ?_ hgiven.2.2.1, by simp⟩ <;>
      simp [Update.values]

theorem careful_replaceSome {updates : List (Int × Operand)} (hk : Known roster p v)
    (hu : ∀ e ∈ updates, ∀ g ∈ e.2.handles, Known roster p g) :
    Careful roster scope p.tree (replaceSome v updates) p fun h q => Given q h := by
  refine (careful_requireVector _ v).bind fun _ q _ hq => ?_
  obtain ⟨rfl, hv⟩ := hq
  refine (careful_collect {} updates).bind fun update q' _ hq => ?_
  obtain ⟨rfl, hupdate⟩ := hq
  have hvector : Usable roster q' (.handle v) := .of_handle hk (by rw [hv]; rfl)
  refine .tagged _ _ (Proceeds.careful (proceeds_replace hscope (hvector.mono List.suffix_rfl)
    fun o ho => ?_) _)
  obtain ⟨⟨i, hi⟩, hscalar⟩ := (hupdate o ho).resolve_left (by simp [Update.values])
  exact ⟨fun g hg => hu _ hi g (Operand.mem_handles.mpr hg), isNumeric_of_scalarLike hscalar⟩

theorem careful_replaceEvery {values : List Operand} (hk : Known roster p v)
    (hu : ∀ o ∈ values, ∀ g ∈ o.handles, Known roster p g) :
    Careful roster scope p.tree (replaceEvery v values) p fun h q => Given q h := by
  refine (careful_requireVector _ v).bind fun _ q _ hq => ?_
  obtain ⟨rfl, -⟩ := hq
  split
  · next x y z =>
    refine (careful_requireComponents [x, y, z]).bind fun _ q' _ hq => ?_
    subst hq
    exact careful_replaceSome hscope hk (by simpa using hu)
  · exact .throw fun _ => rfl

end Calls

def Scope.free : Scope := ⟨fun _ => True, fun _ => True, fun _ _ _ => True⟩

namespace Action

def run : Action → PassM (List Handle)
  | input name kind default => return [← Pass.input name kind default]
  | output name kind => return [← Pass.output name kind]
  | assign target value => do
    Pass.assign target value
    return []
  | call f args => return (← Pass.call f args).handles
  | constant x => return [← Pass.constant x]
  | components v => do
    let (x, y, z) ← Pass.components v
    return [x, y, z]
  | component v index => return [← Pass.component v index]
  | replaceSome v updates => return [← Pass.replaceSome v updates]
  | replaceEvery v values => return [← Pass.replaceEvery v values]
  | frame tag label members => do
    Pass.frame tag label members
    return []

theorem perform_eq (a : Action) (p : Pass) : a.perform p = (a.run p).2 := by
  cases a <;> exact (snd_bind_pure _).symm

def handles : Action → List Handle
  | input _ _ _ | output _ _ | constant _ | frame _ _ _ => []
  | assign target value => target :: value.handles
  | call _ args => args.flatMap Operand.handles
  | components v | component v _ => [v]
  | replaceSome v updates => v :: updates.flatMap (·.2.handles)
  | replaceEvery v values => v :: values.flatMap Operand.handles

def Within (scope : Scope) (p : Pass) : Action → Prop
  | input name kind default =>
    (∀ type, kind.socketType? = some type → scope.asked .input name type) ∧
      (default ≠ none → ∀ e ∈ Tag.assemblies, ∀ place, scope.tags (Tag.assembler e.1 .input place))
  | output name kind => ∀ type, kind.socketType? = some type → scope.asked .output name type
  | assign target value => target.kind = .output → scope.Assigns p target value
  | _ => scope.Calls

/-- The handles that operations give: results of the pass, or new handles on
boundary sockets. -/
inductive Gives (p q : Pass) (a : Action) (h : Handle) : Prop where
  | result (given : Given q h)
  | input {name : String} {kind : Kind} {default : Option Literal} {s : Socket} {type : SocketType}
      (eq : a = .input name kind default) (kind_eq : h.kind = kind) (value : kind ≠ .output)
      (bounds : Bounds q .input name h) (type_eq : kind.socketType? = some type)
      (found : q.tree.boundarySocket? h.socket.socket = some s)
      (typed : q.tree.editor.adjust? type = some s.type)
  | output {name : String} {kind : Kind} {s : Socket} {type : SocketType}
      (eq : a = .output name kind) (kind_eq : h.kind = .output) (bounds : Bounds q .output name h)
      (type_eq : kind.socketType? = some type)
      (found : q.tree.boundarySocket? h.socket.socket = some s)
      (typed : q.tree.editor.adjust? type = some s.type)

/-- What an operation that rejects its operands leaves. -/
def Spared (p : Pass) (a : Action) (fault : Fault) (q : Pass) : Prop :=
  q.tree = p.tree ∨ ∃ name kind l type, a = .input name kind (some l) ∧
    fault = .literalOnBoundary l.kind type ∧ q.tree = ((Action.input name kind none).perform p).tree

theorem behaves (a : Action) (hk : ∀ g ∈ a.handles, Known roster p g) (hw : a.Within scope p) :
    Behaves roster scope a.run p (fun handles q => ∀ h ∈ handles, Gives p q a h)
      fun fault q => fault.rejects = true → a.Spared p fault q := by
  have one : ∀ {m : PassM Handle}, Careful roster scope p.tree m p (fun h q => Given q h) →
      Behaves roster scope (do return [← m]) p (fun handles q => ∀ h ∈ handles, Gives p q a h)
        fun fault q => fault.rejects = true → a.Spared p fault q := by
    intro m hm
    refine .bind (.weaken hm fun _ _ hq hr => .inl (hq hr)) fun h q _ hh => .pure ?_
    simpa using .result hh
  cases a with
  | input name kind default =>
    refine .bind (.weaken (behaves_input hw.1 hw.2) fun fault q hq hr => ?_)
      fun h q _ hh => .pure ?_
    · rcases hq hr with heq | ⟨l, type, rfl, hfault, heq⟩
      · exact .inl heq
      · exact .inr ⟨name, kind, l, type, rfl, hfault, heq⟩
    · obtain ⟨hkind, hvalue, hbounds, s, type, htype, hs, htyped⟩ := hh
      simpa using .input rfl hkind hvalue hbounds htype hs htyped
  | output name kind =>
    refine .bind (.weaken (behaves_output hw) fun _ _ hq hr => .inl (by rw [hq hr]))
      fun h q _ hh => .pure ?_
    obtain ⟨hkind, hbounds, s, type, htype, hs, htyped⟩ := hh
    simpa using .output rfl hkind hbounds htype hs htyped
  | assign target value =>
    refine .bind (.weaken (behaves_assign (fun h hh => ?_) hw)
      fun _ _ hq hr => .inl (by rw [hq hr]))
      fun _ q _ _ => .pure (by simp)
    exact hk h (List.mem_cons_of_mem _ (Operand.mem_handles.mpr hh))
  | call f args =>
    refine .bind (.weaken (careful_call hw fun g hg => ?_) fun _ _ hq hr => .inl (hq hr))
      fun o q _ ho => .pure fun h hh => .result (ho h hh)
    exact hk g (List.mem_flatMap.mpr ⟨_, hg, Operand.mem_handles.mpr rfl⟩)
  | constant x => exact one (Proceeds.careful (proceeds_constant hw x) _)
  | components v =>
    refine .bind (.weaken (careful_components hw.splices (hk v List.mem_cons_self))
      fun _ _ hq hr => .inl (hq hr)) fun parts q _ hparts => .pure ?_
    exact fun h hh => .result (hparts.given h hh)
  | component v index => exact one (careful_component hw.splices (hk v List.mem_cons_self))
  | replaceSome v updates =>
    refine one (careful_replaceSome hw.splices (hk v List.mem_cons_self) fun e he g hg => ?_)
    exact hk g (List.mem_cons_of_mem _ (List.mem_flatMap.mpr ⟨e, he, hg⟩))
  | replaceEvery v values =>
    refine one (careful_replaceEvery hw.splices (hk v List.mem_cons_self) fun o ho g hg => ?_)
    exact hk g (List.mem_cons_of_mem _ (List.mem_flatMap.mpr ⟨o, ho, hg⟩))
  | frame tag label members =>
    exact .bind (.weaken (proceeds_frame hw.splices.frame tag label members) fun _ _ hq hr => (by
      rw [hq] at hr
      cases hr)) fun _ q _ _ => .pure (by simp)

theorem within_free (a : Action) (p : Pass) : a.Within .free p := by
  cases a with
  | input => exact ⟨fun _ _ => trivial, fun _ _ _ _ => trivial⟩
  | output => exact fun _ _ => trivial
  | assign target value =>
    intro _
    cases value with
    | handle h => exact trivial
    | literal l => exact ⟨trivial, fun _ _ _ _ _ _ _ _ => trivial⟩
  | _ => exact fun _ _ => trivial

theorem runs_free (a : Action) (hp : p.Viable) : Runs a.handles .free p (a.perform p) := by
  rw [a.perform_eq]
  exact (a.behaves (fun _ hg => .inl hg) (a.within_free p) hp).1

end Action

theorem Viable.perform (hp : p.Viable) (a : Action) : (a.perform p).Viable :=
  hp.runs (a.runs_free hp)

theorem Viable.performs (hp : p.Viable) (actions : List Action) :
    (actions.foldl Action.perform p).Viable := by
  induction actions generalizing p with
  | nil => exact hp
  | cons a actions ih => exact ih (hp.perform a)

end Pass

end FormulaGraph
