import FormulaGraph.Proofs.Pass.Steps

/-!
What holds of every call because it holds of the steps that constructions are
made of. Each layer of a construction hands all that it is given to nodes, and
what they give to the next one.
-/

namespace FormulaGraph

open Run Numeric

theorem forall₂_mem_right {α β : Type} {R : α → β → Prop} {l : List α} {l' : List β}
    (h : List.Forall₂ R l l') {b : β} (hb : b ∈ l') : ∃ a ∈ l, R a b := by
  induction h with
  | nil => cases hb
  | cons hr _ ih =>
    rcases List.mem_cons.mp hb with rfl | hb
    · exact ⟨_, List.mem_cons_self, hr⟩
    · obtain ⟨a, ha, hab⟩ := ih hb
      exact ⟨a, List.mem_cons_of_mem _ ha, hab⟩

theorem forall₂_mem_left {α β : Type} {R : α → β → Prop} {l : List α} {l' : List β}
    (h : List.Forall₂ R l l') {a : α} (ha : a ∈ l) : ∃ b ∈ l', R a b := by
  obtain ⟨b, hb, hr⟩ := forall₂_mem_right h.flip ha
  exact ⟨b, hb, hr⟩

theorem forall₂_of_mapM {α β : Type} {g : α → Option β} {l : List α} {ys : List β}
    (h : l.mapM g = some ys) : List.Forall₂ (fun a y => g a = some y) l ys := by
  induction l generalizing ys with
  | nil =>
    cases h
    exact .nil
  | cons a l ih =>
    rw [List.mapM_cons] at h
    obtain ⟨y, hy, h⟩ := Option.bind_eq_some_iff.mp h
    obtain ⟨ys', hys, h⟩ := Option.bind_eq_some_iff.mp h
    cases h
    exact .cons hy (ih hys)

namespace Pass

variable {p : Pass} {tag : String} {f : Function} {args : List Operand}

structure Pends (p : Pass) (tag : String) (f : Function) (args : List Operand) : Prop where
  name : ∃ k, tag = Tag.operation f.name (markers k args).1 ∧ (markers k args).2 ≤ p.literals
  isNew : ∀ h l, p.results.lookup tag ≠ some (h :: l)

theorem Pends.of_lookup {k : Nat} (h : tag = Tag.operation f.name (markers k args).1)
    (hl : (markers k args).2 ≤ p.literals) (hr : p.results.lookup tag = none) :
    p.Pends tag f args := by
  refine ⟨⟨k, h, hl⟩, fun g l hg => ?_⟩
  cases hr.symm.trans hg

theorem Pends.lookup (h : p.Pends tag f args) (hp : p.Sound) : p.results.lookup tag = none :=
  (lookup_results hp tag).resolve_right fun ⟨g, l, hr, _⟩ => h.isNew g l hr

theorem Pends.isCall (h : p.Pends tag f args) : Tag.IsCall tag := by
  obtain ⟨k, rfl, -⟩ := h.name
  exact ⟨f, _, rfl⟩

/-- No more arguments than the construction looks at. -/
def Few (f : Function) (args : List Operand) : Prop :=
  (f = .rotaxis → args.length ≤ 4) ∧ (f = .clamp ∨ f = .clampauto → args.length ≤ 3)

def Enough (f : Function) (args : List Operand) : Prop := f = .min ∨ f = .max → 2 ≤ args.length

/-- The result that a tag has, or the one that is made and kept for it. -/
def unlessKept (tag : String) (m : PassM Handle) : PassM Handle := do
  match ← result? tag with
  | some (handle :: _) => return handle
  | _ =>
    let handle ← m
    keepResult tag [handle]
    return handle

theorem unlessKept_of_known {m : PassM Handle} {h : Handle} {l : List Handle}
    (hr : p.results.lookup tag = some (h :: l)) : unlessKept tag m p = (.ok h, p) := by
  unfold unlessKept
  rw [bind_of_ok (result?_run tag), hr]
  rfl

theorem unlessKept_of_new {m : PassM Handle} (hr : p.results.lookup tag = none) :
    unlessKept tag m p = (do let h ← m; keepResult tag [h]; return h : PassM Handle) p := by
  unfold unlessKept
  rw [bind_of_ok (result?_run tag), hr]

abbrev one (h : Handle) : List Operand := [.handle h]

abbrev three (s : Operand × Operand × Operand) : List Operand := [s.1, s.2.1, s.2.2]

/-- A property of computations that take some operands and give others. It is kept
by sequencing, where the next computation takes what the first one gave and may
take more, and the steps of constructions have it. A frame asks that its first
node has been seen, as the nodes are that were given. -/
structure Relay (T : {α : Type} → Pass → List Operand → PassM α → (α → List Operand) → Prop)
    (Seen : Pass → NodeId → Prop) : Prop where
  pure : ∀ {α : Type} {p : Pass} {given : List Operand} {a : α} {gives : α → List Operand},
    (∀ g, .handle g ∈ gives a ↔ .handle g ∈ given) → T p given (pure a) gives
  bind : ∀ {α β : Type} {p : Pass} {given r : List Operand} {m : PassM α} {f : α → PassM β}
    {gives : α → List Operand} {out : β → List Operand}, T p given m gives →
    (∀ a p', m p = (.ok a, p') → (∀ x, Seen p x → Seen p' x) →
      (∀ h, .handle h ∈ gives a → Seen p' h.node) → T p' (gives a ++ r) (f a) out) →
    T p (given ++ r) (m >>= f) out
  congr : ∀ {α : Type} {p : Pass} {given given' : List Operand} {m : PassM α}
    {gives : α → List Operand}, T p given m gives →
    (∀ g, .handle g ∈ given' ↔ .handle g ∈ given) → T p given' m gives
  lacking : ∀ {p : Pass} {given : List Operand} (f : Function),
    T p given (throw (.noConstruction f)) one
  ofTree : ∀ {α : Type} {p : Pass} {given : List Operand} {g : Tree → PassM α}
    {gives : α → List Operand}, (∀ t t' : Tree, t.editor = t'.editor → g t = g t') →
    T p given (g p.tree) gives → T p given (getTree >>= g) gives
  tagged : ∀ {p : Pass} {f : Function} {args : List Operand} {m : String → PassM Handle},
    (∀ {p : Pass} {name : String} {h : Handle} {l : List Handle},
      p.results.lookup name = some (h :: l) → m name p = (.ok h, p)) →
    (∀ {p : Pass} {name : String}, p.Pends name f args → T p args (m name) one) →
    T p args (Pass.tag f.name args >>= m) one
  kept : ∀ {p : Pass} {name : String} {f : Function} {args : List Operand} {m : PassM Handle},
    p.Pends name f args → T p args m one → T p args (unlessKept name m) one
  build : ∀ {p : Pass} {name : String} {f : Function} {args : List Operand} {plan : NodePlan},
    p.Pends name f args → plan.Proper → plan.type.isBuilt = true →
    (∀ o, o ∈ plan.inputs.map Prod.snd ↔ o ∈ args) → T p args (build name plan) one
  separate : ∀ {p : Pass} (v : Operand),
    T p [v] (separate v) fun r => [r.1, r.2.1, r.2.2].map .handle
  constant : ∀ {p : Pass} (x : Double), T p [] (constant x) one
  frame : ∀ {α : Type} {p : Pass} {tag label : String} {members : List NodeId} {m : PassM α}
    {given : List Operand} {gives : α → List Operand}, (∃ x ∈ members.head?, Seen p x) →
    (∀ p', T p' given m gives) → T p given (do frame tag label members; m) gives

theorem map_snd_row (first : Nat) (args : List Operand) :
    (Blueprint.row first args).map Prod.snd = args := by
  apply List.ext_getElem?
  intro i
  simp [Blueprint.row, List.getElem?_mapIdx, Function.comp_def]

/-- A node takes every argument of a call that has not too many. -/
theorem Few.takes {b : Blueprint Operand} (hf : Few f args)
    (h : Blueprint.native Operand.isVector f args = some b) :
    ∀ o, o ∈ b.inputs.map Prod.snd ↔ o ∈ args := by
  have row : ∀ first o, o ∈ (Blueprint.row first args).map Prod.snd ↔ o ∈ args := by
    intro first o
    rw [map_snd_row]
  cases hs : Blueprint.isSpecial f args.length with
  | false =>
    rw [Blueprint.native_plain hs, Blueprint.plain] at h
    split at h
    · cases h
      unfold Blueprint.mapRange
      split <;> exact row _
    · split at h <;>
      · obtain ⟨op, -, rfl⟩ := Option.map_eq_some_iff.mp h
        exact row _
  | true =>
    cases f with
    | lerp | mix =>
      obtain ⟨factor, a, b, rfl⟩ := List.length_eq_three.mp (beq_iff_eq.mp hs)
      cases h
      unfold Blueprint.mix
      split <;> exact fun _ => .rfl
    | clamp | clampauto | combixyz =>
      cases h
      exact row _
    | rotaxis =>
      have hleast : 3 ≤ args.length := of_decide_eq_true hs
      have hmost := hf.1 rfl
      rcases args with _ | ⟨v, _ | ⟨axis, _ | ⟨angle, _ | ⟨center, _ | _⟩⟩⟩⟩ <;>
        simp only [List.length_cons, List.length_nil] at hleast hmost <;>
        first | omega | (cases h; exact fun _ => .rfl)
    | _ => cases hs

theorem few_of_ne (hr : f ≠ .rotaxis) (hc : f ≠ .clamp) (ha : f ≠ .clampauto) : Few f args :=
  ⟨fun h => absurd h hr, fun h => h.elim (absurd · hc) (absurd · ha)⟩

theorem mathNode_of_known (hf : f = .min ∨ f = .max) {h : Handle} {l : List Handle}
    (hr : p.results.lookup tag = some (h :: l)) : mathNode f tag args p = (.ok h, p) := by
  rcases hf with rfl | rfl <;> exact build_of_known hr

theorem head?_dedupAdjacent (l : List NodeId) : (dedupAdjacent l).head? = l.head? := by
  fun_induction dedupAdjacent l with
  | case1 | case2 | case4 => rfl
  | case3 b rest ih => exact ih

/-- The arguments by components are as many as there were, and what splits them
gives some of them. -/
theorem axesAll_spec {r : List (Operand × Operand × Operand) × List NodeId} {p' : Pass}
    (h : axesAll args p = (.ok r, p')) : r.1.length = args.length ∧
      ∀ x ∈ r.2, ∃ g : Handle, .handle g ∈ r.1.map (·.1) ∧ g.node = x := by
  induction args generalizing p p' r with
  | nil =>
    cases h
    exact ⟨rfl, nofun⟩
  | cons arg rest ih =>
    obtain ⟨s, p₁, h₁, h⟩ := bind_eq_ok.mp h
    obtain ⟨rs, p₂, h₂, h⟩ := bind_eq_ok.mp h
    cases h
    obtain ⟨hlen, hnodes⟩ := ih h₂
    refine ⟨by simp [hlen], fun x hx => ?_⟩
    rcases List.mem_append.mp hx with hx | hx
    · unfold axes at h₁
      split at h₁
      · cases h₁
        cases hx
      · split at h₁
        · obtain ⟨g, p₃, -, h₁⟩ := bind_eq_ok.mp h₁
          cases h₁
          rw [List.mem_singleton.mp hx]
          exact ⟨g.1, List.mem_cons_self, rfl⟩
        · cases h₁
          cases hx
    · obtain ⟨g, hg, hnode⟩ := hnodes x hx
      exact ⟨g, List.mem_cons_of_mem _ hg, hnode⟩

theorem few_of_callFault? {editor : Editor} (h : callFault? editor f args = none) : Few f args := by
  have harity := arity_of_callFault? h
  constructor
  · rintro rfl
    exact Function.length_le harity rfl
  · rintro (rfl | rfl) <;> exact Function.length_le harity rfl

theorem enough_of_callFault? {editor : Editor} (h : callFault? editor f args = none) :
    Enough f args := by
  have hleast := Function.required_le (arity_of_callFault? h)
  rintro (rfl | rfl) <;> exact hleast

/-- A call that is folded has no handles among its arguments. -/
theorem not_handle_of_folded? {x : Single} (h : folded? f args = some x) (g : Handle) :
    .handle g ∉ args := by
  intro hg
  unfold folded? at h
  split at h
  · obtain ⟨y, hy, -⟩ := Option.map_eq_some_iff.mp h
    obtain ⟨xs, hxs, -⟩ := Option.bind_eq_some_iff.mp hy
    obtain ⟨x, -, hx⟩ := forall₂_mem_left (forall₂_of_mapM hxs) hg
    cases hx
  · cases h

def TermValue.operands : TermValue → List Operand
  | .number _ => []
  | .operand o => [o]

theorem operands_of_foldedTerm? {values : List TermValue} {x : Double}
    (h : foldedTerm? f values = some x) : values.flatMap (·.operands) = [] := by
  unfold foldedTerm? at h
  split at h
  · obtain ⟨xs, hxs, -⟩ := Option.bind_eq_some_iff.mp h
    rw [List.flatMap_eq_nil_iff]
    intro v hv
    obtain ⟨y, -, hy⟩ := forall₂_mem_left (forall₂_of_mapM hxs) hv
    cases v with
    | number x => rfl
    | operand o => cases hy
  · cases h

namespace Relay

variable {T : {α : Type} → Pass → List Operand → PassM α → (α → List Operand) → Prop}
  {Seen : Pass → NodeId → Prop} (h : Relay T Seen)
include h

theorem andThen {α β : Type} {given given' : List Operand} {m : PassM α} {f : α → PassM β}
    {gives : α → List Operand} {out : β → List Operand} (r : List Operand)
    (hm : T p given m gives) (hiff : ∀ g, .handle g ∈ given' ↔ .handle g ∈ given ++ r)
    (hf : ∀ a p', m p = (.ok a, p') → (∀ x, Seen p x → Seen p' x) →
      (∀ h, .handle h ∈ gives a → Seen p' h.node) → T p' (gives a ++ r) (f a) out) :
    T p given' (m >>= f) out :=
  h.congr (h.bind hm hf) hiff

theorem framed {label : String} {members : List NodeId} {x : NodeId} (g : Handle)
    (hx : members.head? = some x) (hs : Seen p x) :
    T p (one g) (do Pass.frame tag label members; return g) one :=
  h.frame ⟨x, hx, hs⟩ fun _ => h.pure fun _ => .rfl

theorem applyBy {construct : Construction}
    (hc : ∀ {p : Pass} {name : String}, p.Pends name f args →
      T p args (construct f name args) one) :
    T p args (Pass.applyBy construct f args) one :=
  h.tagged unlessKept_of_known fun hp => h.kept hp (hc hp)

theorem combine (x y z : Operand) : T p [x, y, z] (Pass.combine x y z) one :=
  h.tagged (f := .combixyz) build_of_known fun hp =>
    h.build hp ⟨by simp, nodup_slotsFrom _ _⟩ rfl fun _ => .rfl

theorem mathNode (hp : p.Pends tag f args) : T p args (Pass.mathNode f tag args) one := by
  unfold Pass.mathNode
  split
  · exact h.lacking _
  · refine h.build hp ⟨by simp, nodup_slotsFrom _ _⟩ rfl fun o => ?_
    exact iff_of_eq (congrArg (o ∈ ·) (map_snd_row 0 args))

theorem step (hf : f = .min ∨ f = .max) (a b : Operand) :
    T p [a, b] (Pass.tag f.name [a, b] >>= fun name => Pass.mathNode f name [a, b]) one :=
  h.tagged (mathNode_of_known hf) h.mathNode

theorem chainSteps (hf : f = .min ∨ f = .max) (first : Operand) (args : List Operand) :
    T p (first :: args) (Pass.chainSteps f first args) fun r => [r.1] := by
  induction args generalizing first p with
  | nil => exact h.pure (by simp)
  | cons arg rest ih =>
    unfold Pass.chainSteps
    rw [← bind_assoc]
    refine h.andThen rest (h.step hf first arg) (by simp) fun step _ _ _ _ => ?_
    refine h.andThen [] (ih (.handle step)) (by simp) fun r _ _ _ _ => ?_
    exact h.pure (by simp)

theorem chain (hf : f = .min ∨ f = .max) (hp : p.Pends tag f args) (he : 2 ≤ args.length) :
    T p args (Pass.chain f tag args) one := by
  unfold Pass.chain
  split
  · exact h.mathNode hp
  · next first rest _ =>
    match rest with
    | [] => simp at he
    | arg :: rest =>
      rw [Pass.chainSteps, ← bind_assoc, bind_assoc]
      -- the first step is seen, and the frame begins with it
      refine h.andThen rest (h.step hf first arg) (by simp) fun step p₁ _ _ hs => ?_
      rw [bind_assoc]
      refine h.andThen [] (h.chainSteps hf (.handle step) rest) (by simp) fun r p₂ _ later _ => ?_
      refine h.frame ⟨_, rfl, later _ (hs step (by simp))⟩ fun p₃ => ?_
      split
      · next g hg => exact h.pure (by simp [hg])
      · exact h.lacking _
  · exact h.lacking _

theorem native (hp : p.Pends tag f args) (hf : Few f args) (he : Enough f args) :
    T p args (Pass.native f tag args) one := by
  refine native_cases (T := (T p args · one)) tag (fun hm => h.chain hm hp (he hm)) (h.lacking f)
    fun b hb => ?_
  have hneat := Blueprint.neat_native hb
  exact h.build hp ⟨hneat.settings, hneat.slots⟩ hneat.built (hf.takes hb)

theorem extremum (hf : f = .min ∨ f = .max) (a b : Operand) :
    T p [a, b] (Pass.applyBy Pass.native f [a, b]) one :=
  h.applyBy fun hp => h.native hp
    (by rcases hf with rfl | rfl <;> exact few_of_ne nofun nofun nofun)
    fun _ => Nat.le_refl 2

theorem emulatedClamp (v low high : Operand) :
    T p [v, low, high] (Pass.emulatedClamp f tag v low high) one := by
  have least : ∀ {p a b}, T p [a, b] (Pass.applyBy Pass.native .min [a, b]) one :=
    h.extremum (.inl rfl) _ _
  have most : ∀ {p a b}, T p [a, b] (Pass.applyBy Pass.native .max [a, b]) one :=
    h.extremum (.inr rfl) _ _
  unfold Pass.emulatedClamp
  split
  · refine h.andThen [low, high, v] least (by grind) fun lower _ _ _ seen => ?_
    refine h.andThen [.handle lower, v] most (by grind) fun upper _ _ l₁ _ => ?_
    refine h.andThen (one lower) least (by grind) fun capped _ _ l₂ _ => ?_
    refine h.andThen [] most (by grind) fun result _ _ l₃ _ => ?_
    exact h.framed result rfl (l₃ _ (l₂ _ (l₁ _ (seen lower (by simp)))))
  · refine h.andThen [low] least (by grind) fun capped _ _ _ seen => ?_
    refine h.andThen [] most (by grind) fun result _ _ l₁ _ => ?_
    exact h.framed result rfl (l₁ _ (seen capped (by simp)))

theorem clampForm {v : Operand} {bounds : List Operand} (hb : bounds.length ≤ 2) :
    T p (v :: bounds) (Pass.emulatedClamp f tag v (bounds[0]?.getD (.scalar 0))
      (bounds[1]?.getD (.scalar 1))) one := by
  refine h.congr (h.emulatedClamp _ _ _) ?_
  match bounds, hb with
  | [], _ => simp [Operand.scalar]
  | [a], _ => simp [Operand.scalar]
  | [a, b], _ => simp

theorem scalarForm (hp : p.Pends tag f args) (hf : Few f args) (he : Enough f args) :
    T p args (Pass.scalarForm f tag args) one := by
  refine h.ofTree (fun t t' ht => by dsimp only; rw [ht]) ?_
  dsimp only
  split
  · split
    · exact h.native hp hf he
    · exact h.clampForm (Nat.le_of_succ_le_succ (hf.2 (.inl rfl)))
  · split
    · exact h.native hp hf he
    · exact h.clampForm (Nat.le_of_succ_le_succ (hf.2 (.inr rfl)))
  · exact h.native hp hf he

theorem axes (arg : Operand) : T p [arg] (Pass.axes arg) fun r => three r.1 := by
  unfold Pass.axes
  split
  · exact h.pure (by simp [Operand.scalar])
  · split
    · exact h.andThen [] (h.separate arg) (by simp) fun r _ _ _ _ => h.pure (by simp)
    · exact h.pure (by simp)

theorem axesAll (args : List Operand) : T p args (Pass.axesAll args) fun r =>
    r.1.map (·.1) ++ (r.1.map (·.2.1) ++ r.1.map (·.2.2)) := by
  induction args generalizing p with
  | nil => exact h.pure (by simp)
  | cons arg rest ih =>
    refine h.andThen rest (h.axes arg) (by simp) fun r _ _ _ _ => ?_
    refine h.andThen (three r.1) ih (by grind) fun rs _ _ _ _ => ?_
    exact h.pure (by grind)

theorem perComponent (hf : Few f args) (he : Enough f args) :
    T p args (Pass.perComponent f tag args) one := by
  refine h.andThen [] (h.axesAll args) (by simp) fun r p₁ hr _ seen => ?_
  obtain ⟨hlen, hnodes⟩ := axesAll_spec hr
  -- each component of the arguments is a list of arguments like the first
  have along : ∀ {p : Pass} (axis : Operand × Operand × Operand → Operand),
      T p (r.1.map axis) (Pass.applyBy Pass.scalarForm f (r.1.map axis)) one := by
    intro p axis
    have hsame : (r.1.map axis).length = args.length := by rw [List.length_map, hlen]
    exact h.applyBy fun hp => h.scalarForm hp (by unfold Few; rw [hsame]; exact hf)
      (by unfold Enough; rw [hsame]; exact he)
  refine h.andThen (r.1.map (·.2.1) ++ r.1.map (·.2.2)) (along (·.1)) (by simp)
    fun x _ _ l₁ hx => ?_
  refine h.andThen (.handle x :: r.1.map (·.2.2)) (along (·.2.1)) (by grind) fun y _ _ l₂ _ => ?_
  refine h.andThen [.handle x, .handle y] (along (·.2.2)) (by grind) fun z _ _ l₃ _ => ?_
  refine h.andThen [] (h.combine (.handle x) (.handle y) (.handle z)) (by grind)
    fun combined _ _ l₄ _ => ?_
  have later := fun x hx => l₄ x (l₃ x (l₂ x hx))
  cases hs : r.2 with
  | nil => exact h.framed combined (by rw [head?_dedupAdjacent]; rfl) (later _ (hx x (by simp)))
  | cons node rest =>
    obtain ⟨g, hg, hnode⟩ := hnodes node (by rw [hs]; exact List.mem_cons_self)
    refine h.framed combined (by rw [head?_dedupAdjacent]; rfl) (later _ (l₁ _ ?_))
    rw [← hnode]
    exact seen g (List.mem_append_left _ hg)

theorem numericForm (hp : p.Pends tag f args) (hf : Few f args) (he : Enough f args) :
    T p args (Pass.numericForm f tag args) one := by
  refine h.ofTree (fun t t' ht => by rw [ht]) ?_
  split
  · exact h.perComponent hf he
  · exact h.scalarForm hp hf he

theorem construct (hp : p.Pends tag f args) (hf : Few f args) (he : Enough f args) :
    T p args (Pass.construct f tag args) one := by
  have step : ∀ {p : Pass} {f : Function} (args : List Operand), f ∈ [.div, .pow, .sub, .floor] →
      T p args (Pass.applyBy Pass.numericForm f args) one := by
    intro p f args hf
    refine h.applyBy fun hp => h.numericForm hp (few_of_ne ?_ ?_ ?_) ?_
    · rintro rfl
      simp at hf
    · rintro rfl
      simp at hf
    · rintro rfl
      simp at hf
    · rintro (rfl | rfl) <;> simp at hf
  unfold Pass.construct
  split
  · next a n =>
    refine h.andThen [a] (step _ (by decide)) (by grind [Operand.scalar])
      fun exponent _ _ _ seen => ?_
    refine h.andThen [] (step [a, .handle exponent] (by decide)) (by grind) fun root _ _ l _ => ?_
    exact h.framed root rfl (l _ (seen exponent (by simp)))
  · refine h.andThen [] (step _ (by decide)) (by simp [Operand.scalar])
      fun negated _ _ _ seen => ?_
    exact h.framed negated rfl (seen negated (by simp))
  · refine h.andThen [] (step _ (by decide)) (by simp) fun quotient _ _ _ seen => ?_
    refine h.andThen [] (step _ (by decide)) (by simp) fun floored _ _ l _ => ?_
    exact h.framed floored rfl (l _ (seen quotient (by simp)))
  · exact h.numericForm hp hf he

theorem call (refused : ∀ (t : Tree) (fault : Fault), callFault? t.editor f args = some fault →
    ∀ p, T p args (throw fault : PassM Operand) fun o => [o]) :
    T p args (Pass.call f args) fun o => [o] := by
  refine h.ofTree (fun t t' ht => by rw [ht]) ?_
  split
  · next hfault => exact refused _ _ hfault p
  · next hnone =>
    split
    · next hx => exact h.pure (by simp [Operand.scalar, not_handle_of_folded? hx])
    · refine h.andThen [] (h.applyBy fun hp => h.construct hp (few_of_callFault? hnone)
        (enough_of_callFault? hnone)) (by simp) fun g _ _ _ _ => ?_
      exact h.pure (by simp)

theorem materializeAll {constantNodes : Bool} (values : List TermValue) :
    T p (values.flatMap (·.operands)) (Pass.materializeAll constantNodes values) id := by
  have one : ∀ {p : Pass} (v : TermValue),
      T p v.operands (Pass.materialize constantNodes v) fun o => [o] := by
    intro p v
    unfold Pass.materialize
    split
    · split
      · exact h.bind (r := []) (h.constant _) fun g _ _ _ _ => h.pure (by simp)
      · exact h.pure (by simp [Operand.scalar, TermValue.operands])
    · exact h.pure (by simp [TermValue.operands])
  induction values generalizing p with
  | nil => exact h.pure (by simp)
  | cons v rest ih =>
    rw [List.flatMap_cons]
    refine h.bind (one v) fun o _ _ _ _ => ?_
    refine h.andThen [o] ih (by grind) fun os _ _ _ _ => ?_
    exact h.pure (by grind)

end Relay

variable {T : {α : Type} → Pass → List Operand → PassM α → (α → List Operand) → Prop}
  {Seen : Pass → NodeId → Prop} {constantNodes : Bool} {inputs : Inputs}

mutual

/-- It holds of evaluating a term, if it holds of the inputs and of all faults. -/
theorem Relay.evaluate (h : Relay T Seen)
    (throw : ∀ {α : Type} {p : Pass} {given : List Operand} {gives : α → List Operand}
      (fault : Fault), T p given (throw fault) gives)
    (given : ∀ {p : Pass} {name : String} {g : Handle}, inputs.lookup name = some g →
      T p [] (Pure.pure (TermValue.operand (.handle g))) TermValue.operands) {p : Pass} (t : Term) :
    T p [] (Pass.evaluate constantNodes inputs t) TermValue.operands := by
  match t with
  | .constant x => exact h.pure (by simp [TermValue.operands])
  | .name n =>
    unfold Pass.evaluate
    split
    · next hl => exact given hl
    · exact throw _
  | .call f args =>
    unfold Pass.evaluate
    refine h.bind (r := []) (h.evaluateAll throw given args) fun values p₁ _ _ _ => ?_
    split
    · next hx =>
      rw [operands_of_foldedTerm? hx]
      exact h.pure (by simp [TermValue.operands])
    · refine h.bind (r := []) (h.materializeAll values) fun operands _ _ _ _ => ?_
      refine h.bind (r := []) (h.call fun _ _ _ _ => throw _) fun o _ _ _ _ => ?_
      exact h.pure (by simp [TermValue.operands])

theorem Relay.evaluateAll (h : Relay T Seen)
    (throw : ∀ {α : Type} {p : Pass} {given : List Operand} {gives : α → List Operand}
      (fault : Fault), T p given (throw fault) gives)
    (given : ∀ {p : Pass} {name : String} {g : Handle}, inputs.lookup name = some g →
      T p [] (Pure.pure (TermValue.operand (.handle g))) TermValue.operands) {p : Pass}
      (ts : List Term) :
    T p [] (Pass.evaluateAll constantNodes inputs ts)
      fun values => values.flatMap (·.operands) := by
  match ts with
  | [] => exact h.pure (by simp)
  | t :: rest =>
    unfold Pass.evaluateAll
    refine h.bind (r := []) (h.evaluate throw given t) fun v _ _ _ _ => ?_
    refine h.andThen v.operands (h.evaluateAll throw given rest) (by simp) fun vs _ _ _ _ => ?_
    exact h.pure (by grind)

end

end Pass

end FormulaGraph

namespace FormulaGraph.Pass

/-- A property of computations in a pass that sequencing keeps and that the steps
of constructions have. -/
structure Compositional (T : {α : Type} → Pass → PassM α → Prop) : Prop where
  idle : ∀ {α : Type} {p : Pass} {m : PassM α} {a : α}, m p = (.ok a, p) → T p m
  bind : ∀ {α β : Type} {p : Pass} {m : PassM α} {f : α → PassM β}, T p m →
    (∀ a p', m p = (.ok a, p') → T p' (f a)) → T p (m >>= f)
  lacking : ∀ (f : Function) (p : Pass), T p (throw (.noConstruction f) : PassM Handle)
  tag : ∀ op args p, T p (tag op args)
  kept : ∀ {p : Pass} {name : String} {m : PassM Handle},
    (∀ h l, p.results.lookup name ≠ some (h :: l)) → T p m → T p (unlessKept name m)
  build : ∀ name plan, plan.type.isBuilt = true → ∀ p, T p (build name plan)
  separate : ∀ v p, T p (separate v)
  constant : ∀ x p, T p (constant x)
  frame : ∀ name label members p, T p (frame name label members)

variable {T : {α : Type} → Pass → PassM α → Prop}

theorem kept_of_keepResult
    (idle : ∀ {α : Type} {p : Pass} {m : PassM α} {a : α}, m p = (.ok a, p) → T p m)
    (bind : ∀ {α β : Type} {p : Pass} {m : PassM α} {f : α → PassM β}, T p m →
      (∀ a p', m p = (.ok a, p') → T p' (f a)) → T p (m >>= f))
    (keepResult : ∀ name handles p, T p (keepResult name handles)) {p : Pass} {name : String}
    {m : PassM Handle} (hm : T p m) : T p (unlessKept name m) := by
  refine bind (idle (result?_run name)) fun found p' hfound => ?_
  cases hfound
  split
  · exact idle rfl
  · exact bind hm fun _ _ _ => bind (keepResult _ _ _) fun _ _ _ => idle rfl

namespace Compositional

variable (h : Compositional T)
include h

theorem relay : Relay (fun p _ m _ => T p m) fun _ _ => True where
  pure _ := h.idle rfl
  bind hm hf := h.bind hm fun a p' ha => hf a p' ha (fun _ hx => hx) fun _ _ => trivial
  congr hm _ := hm
  lacking f := h.lacking f _
  ofTree {_ p _ g _} _ hg := h.bind (h.idle (a := p.tree) rfl) fun t p' ht => by
    cases ht
    exact hg
  tagged {p f args m} hknown hnew := h.bind (h.tag _ _ _) fun name p' ht => by
    cases ht
    by_cases hr : ∃ g l, p.results.lookup (Tag.operation f.name (markers p.literals args).1) =
        some (g :: l)
    · obtain ⟨g, l, hr⟩ := hr
      exact h.idle (hknown hr)
    · exact hnew ⟨⟨_, rfl, Nat.le_refl _⟩, fun g l hg => hr ⟨g, l, hg⟩⟩
  kept hp hm := h.kept hp.isNew hm
  build _ _ hb _ := h.build _ _ hb _
  separate v := h.separate v _
  constant x := h.constant x _
  frame _ hm := h.bind (h.frame _ _ _ _) fun _ p' _ => hm p'

theorem call {f : Function} {args : List Operand} (refused : ∀ (t : Tree) (fault : Fault),
    callFault? t.editor f args = some fault → ∀ p, T p (throw fault : PassM Operand)) (p : Pass) :
    T p (call f args) := h.relay.call refused

theorem materializeAll (constantNodes : Bool) (values : List TermValue) (p : Pass) :
    T p (materializeAll constantNodes values) := h.relay.materializeAll values

variable (throw : ∀ {α : Type} (fault : Fault) (p : Pass), T p (throw fault : PassM α))
  (constantNodes : Bool) (inputs : Inputs)
include throw

theorem evaluate (term : Term) (p : Pass) : T p (evaluate constantNodes inputs term) :=
  h.relay.evaluate (fun fault => throw fault _) (fun _ => h.idle rfl) term

theorem evaluateAll (terms : List Term) (p : Pass) : T p (evaluateAll constantNodes inputs terms) :=
  h.relay.evaluateAll (fun fault => throw fault _) (fun _ => h.idle rfl) terms

end Compositional

end FormulaGraph.Pass
