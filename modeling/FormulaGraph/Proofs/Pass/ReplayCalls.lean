import FormulaGraph.Proofs.Pass.Relay
import FormulaGraph.Proofs.Pass.Replay

/-!
Calls of functions replay: the results of every construction are settled nodes,
so whatever the four layers build out of them is found again.
-/

namespace FormulaGraph.Pass

open Run Numeric

variable {args : List Operand} {f : Function} {p p' : Pass} {tag : String}

def SettledAll (p : Pass) (args : List Operand) : Prop :=
  ∀ h, .handle h ∈ args → p.Settled h.node

/-- A computation that replays if its operands are settled, and gives operands
that are. -/
def Retraces {α : Type} (p : Pass) (given : List Operand) (m : PassM α)
    (gives : α → List Operand) : Prop :=
  p.Sound → p.SettledAll given → Replays m p fun a p' => p'.SettledAll (gives a)

theorem settledAll_one {h : Handle} (hs : p.Settled h.node) : p.SettledAll (one h) := by
  intro g hg
  cases List.mem_singleton.mp hg
  exact hs

theorem retraces_tagged {m : String → PassM Handle}
    (hknown : ∀ {p : Pass} {name : String} {h : Handle} {l : List Handle},
      p.results.lookup name = some (h :: l) → m name p = (.ok h, p))
    (hnew : ∀ {p : Pass} {name : String}, p.Pends name f args → Retraces p args (m name) one) :
    Retraces p args (Pass.tag f.name args >>= m) one := by
  intro hp hgiven g p' h
  let name := Tag.operation f.name (markers p.literals args).1
  let p₀ : Pass := { p with literals := (markers p.literals args).2 }
  have hgrows : Grows p p₀ := .withLiterals (literals_le_markers p.literals args)
  have hp₀ : p₀.Sound := hp.withLiterals _
  -- the second pass makes the same tag
  have again : ∀ {T : Tree} {q : Pass}, Echoes T p q → (Pass.tag f.name args >>= m) q =
      m name { q with literals := (markers p.literals args).2 } := by
    intro T q he
    rw [bind_of_ok (tag_run _ _), he.literals]
  change m name p₀ = _ at h
  rcases lookup_results hp name with hr | ⟨g', l, hr, hmem⟩
  · have hpend : p₀.Pends name f args := .of_lookup rfl (Nat.le_refl _) hr
    obtain ⟨hp', hg, hq, hreplay⟩ := hnew hpend hp₀ hgiven g p' h
    refine ⟨hp', hgrows.trans hg, hq, fun T q hl he => ?_⟩
    rw [again he]
    exact hreplay T _ hl (he.withLiterals _)
  · rw [hknown (p := p₀) hr] at h
    obtain ⟨⟨⟩, rfl⟩ := Prod.mk.inj h
    refine ⟨hp₀, hgrows, settledAll_one (.inr ⟨_, hmem, _, List.mem_cons_self, rfl⟩),
      fun T q hl he => ⟨_, ?_, he.withLiterals _⟩⟩
    rw [again he]
    exact hknown (by rw [← hr, ← he.results])

theorem retraces_kept {m : PassM Handle} (hpend : p.Pends tag f args)
    (hm : Retraces p args m one) : Retraces p args (unlessKept tag m) one := by
  intro hp hgiven g p' h
  have hr := hpend.lookup hp
  rw [unlessKept_of_new hr] at h
  obtain ⟨g', p₁, h₁, h₂⟩ := bind_eq_ok.mp h
  obtain ⟨rfl, rfl⟩ : g' = g ∧ { p₁ with results := (tag, [g']) :: p₁.results } = p' := by
    cases h₂
    exact ⟨rfl, rfl⟩
  obtain ⟨hp₁, hg, hq, hreplay⟩ := hm hp hgiven g' p₁ h₁
  have hs := hq g' (List.mem_singleton_self _)
  have hkeep : Grows p₁ { p₁ with results := (tag, [g']) :: p₁.results } := .keep tag g'
  refine ⟨hp₁.keep hpend.isCall hs, hg.trans hkeep, settledAll_one (hkeep.settled hs),
    fun T q hl he => ?_⟩
  obtain ⟨q₁, hq₁, he₁⟩ := hreplay T q (hl.of_grows hkeep) he
  refine ⟨{ q₁ with results := (tag, [g']) :: q₁.results }, ?_,
    { he₁ with results := congrArg ((tag, [g']) :: ·) he₁.results }⟩
  rw [unlessKept_of_new (by rw [he.results]; exact hr), bind_of_ok hq₁]
  rfl

theorem retraces_ofTree {α : Type} {given : List Operand} {g : Tree → PassM α}
    {gives : α → List Operand} (hg : ∀ t t' : Tree, t.editor = t'.editor → g t = g t')
    (h : Retraces p given (g p.tree) gives) : Retraces p given (getTree >>= g) gives := by
  intro hp hgiven a p' ha
  obtain ⟨hp', hgrows, hq, hreplay⟩ := h hp hgiven a p' ha
  refine ⟨hp', hgrows, hq, fun T q hl he => ?_⟩
  obtain ⟨q', hq', he'⟩ := hreplay T q hl he
  refine ⟨q', ?_, he'⟩
  rw [bind_of_ok (rfl : getTree q = (.ok q.tree, q)), hg _ _ he.editor, hq']

theorem relay_retraces : Relay Retraces Settled where
  pure h hp hgiven := .pure hp fun g hg => hgiven g ((h g).mp hg)
  bind {_ _ p given r m f gives out} hm hf hp hgiven := by
    refine (hm hp fun g hg => hgiven g (List.mem_append_left _ hg)).bind fun a p' ha hp' hg hq => ?_
    refine hf a p' ha (fun _ => hg.settled) hq hp' fun g hmem => ?_
    rcases List.mem_append.mp hmem with hmem | hmem
    · exact hq g hmem
    · exact hg.settled (hgiven g (List.mem_append_right _ hmem))
  congr h hiff hp hgiven := h hp fun g hg => hgiven g ((hiff g).mpr hg)
  lacking _ _ _ := .throw
  ofTree := retraces_ofTree
  tagged := retraces_tagged
  kept := retraces_kept
  build hpend hplan _ hargs hp hgiven g p' h := by
    obtain ⟨hp', hg, hs, hreplay⟩ := replays_build hp hpend.isCall (hpend.lookup hp) hplan
      (fun h hh => hgiven h ((hargs _).mp hh)) g p' h
    exact ⟨hp', hg, settledAll_one hs, hreplay⟩
  separate v hp hgiven r p' h := by
    obtain ⟨hp', hg, ⟨hx, hy, hz⟩, hreplay⟩ := replays_separate hp
      (fun h hh => hgiven h (by rw [hh]; exact List.mem_cons_self)) r p' h
    refine ⟨hp', hg, ?_, hreplay⟩
    simp only [SettledAll, List.map_cons, List.map_nil, List.mem_cons, List.not_mem_nil, or_false]
    rintro h (⟨⟨⟩⟩ | ⟨⟨⟩⟩ | ⟨⟨⟩⟩)
    · exact hx
    · exact hy
    · exact hz
  constant x hp _ g p' h := by
    obtain ⟨hp', hg, hs, hreplay⟩ := replays_constant hp x g p' h
    exact ⟨hp', hg, settledAll_one hs, hreplay⟩
  frame {_ p tag label members m given gives} hfirst hm hp hgiven := by
    obtain ⟨x, hx, hs⟩ := hfirst
    obtain ⟨rest, rfl⟩ := List.head?_eq_some_iff.mp hx
    exact (replays_frame hp hs).bind fun _ p' _ hp' hg _ =>
      hm p' hp' fun h hh => hg.settled (hgiven h hh)

theorem replays_evaluate {constantNodes : Bool} {inputs : Inputs}
    (hi : ∀ e ∈ inputs, e.2.node = .groupInput) (t : Term) (hp : p.Sound) :
    Replays (evaluate constantNodes inputs t) p fun v p' => p'.SettledAll v.operands := by
  refine relay_retraces.evaluate (fun _ _ _ => .throw) (fun hl hp _ => ?_) t hp nofun
  exact .pure hp (settledAll_one (.inl (hi _ (mem_of_lookup hl))))

/-- The value of a term is no vector. -/
theorem scalar_of_evaluate {constantNodes : Bool} {inputs : Inputs} {t : Term} {l : Literal}
    (h : evaluate constantNodes inputs t p = (.ok (.operand (.literal l)), p')) :
    ∃ x, l = .scalar x := by
  match t with
  | .constant x => cases h
  | .name n =>
    unfold evaluate at h
    cases hl : inputs.lookup n <;>
    · rw [hl] at h
      cases h
  | .call f args =>
    unfold evaluate at h
    obtain ⟨values, p₁, -, h⟩ := bind_eq_ok.mp h
    cases hx : foldedTerm? f values with
    | some x =>
      rw [hx] at h
      cases h
    | none =>
      rw [hx] at h
      obtain ⟨operands, p₂, -, h⟩ := bind_eq_ok.mp h
      obtain ⟨o, p₃, h₃, h⟩ := bind_eq_ok.mp h
      cases h
      obtain ⟨t, p₄, -, h₃⟩ := bind_eq_ok.mp h₃
      cases hfault : callFault? t.editor f operands with
      | some fault =>
        rw [hfault] at h₃
        cases h₃
      | none =>
        rw [hfault] at h₃
        cases hy : folded? f operands with
        | some y =>
          rw [hy] at h₃
          cases h₃
          exact ⟨_, rfl⟩
        | none =>
          rw [hy] at h₃
          obtain ⟨g, p₅, -, h₃⟩ := bind_eq_ok.mp h₃
          cases h₃

end FormulaGraph.Pass
