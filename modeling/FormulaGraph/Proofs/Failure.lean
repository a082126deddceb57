import FormulaGraph.Proofs.History

/-!
What a failed call leaves of the tree. No generated node is removed and no
output is touched, but the inputs have been brought in line with the variables
by then: those that are no variables are gone with their links, those of another
type are retyped, and nodes that are used again have been rewired.
-/

namespace FormulaGraph

open Run

namespace Tree

variable {t t' : Tree} {options : Options} {unknowns : List String} {name : String}

/-- Whether a boundary socket is an input that variables leave as it is. -/
def Suits (t : Tree) (options : Options) (unknowns : List String) (s : Socket) : Prop :=
  s.name ∈ unknowns ∧ t.editor.boundaryType? (options.kindOf s.name) = some s.type

/-- The sockets that declaring variables may change: inputs that do not suit
them, and new ones. -/
def Alters (t : Tree) (options : Options) (unknowns : List String) (x : SocketId) : Prop :=
  t.supply ≤ x.index ∨ ∃ s ∈ t.boundary, s.id = x ∧ s.side = .input ∧ ¬t.Suits options unknowns s

structure Adapts (options : Options) (unknowns : List String) (t t' : Tree) : Prop where
  redraws : Reboundary (t.Alters options unknowns) t t'
  outputs : t'.socketsOn .output = t.socketsOn .output
  origin : ∀ s ∈ t'.boundary, s ∈ t.boundary ∨ t.Suits options unknowns s

namespace Adapts

theorem refl (hs : t.Sane) (hg : t.Grouped) : Adapts options unknowns t t :=
  ⟨.refl hs hg, rfl, fun _ h => .inl h⟩

theorem trans {t'' : Tree} (h : Adapts options unknowns t t')
    (h' : Adapts options unknowns t' t'') : Adapts options unknowns t t'' := by
  obtain ⟨hr, ho, hb⟩ := h
  obtain ⟨hr', ho', hb'⟩ := h'
  have suits : ∀ s, t'.Suits options unknowns s ↔ t.Suits options unknowns s := by
    intro s
    rw [Suits, Suits, hr.editor]
  refine ⟨hr.trans (hr'.mono ?_), ho'.trans ho, ?_⟩
  · rintro x (hx | ⟨s, hs, hid, hside, hnot⟩)
    · exact .inl (Nat.le_trans hr.supply hx)
    · rw [suits] at hnot
      exact .inr ⟨s, (hb s hs).resolve_right hnot, hid, hside, hnot⟩
  · intro s hs
    rcases hb' s hs with hs | hs
    · exact hb s hs
    · exact .inr ((suits s).mp hs)

end Adapts

/-- Making sure of the input of a variable. -/
theorem adapts_socketFor (hs : t.Sane) (hg : t.Grouped) {type wanted : SocketType} {x : SocketId}
    (hname : name ∈ unknowns) (ha : t.editor.adjust? type = some wanted)
    (htype : t.editor.boundaryType? (options.kindOf name) = some wanted)
    (h : socketFor .input name type t = (.ok x, t')) : Adapts options unknowns t t' := by
  have hadjust : t.adjustType type = .ok wanted := by
    unfold adjustType
    rw [ha]
  obtain ⟨hr, -, hout⟩ := socketFor_spec hs hg h
  rw [socketFor_run hg.distinct, hadjust] at h
  dsimp only at h
  cases hb : t.boundaryNamed? .input name with
  | none =>
    rw [hb] at h
    cases h
    refine ⟨hr.mono ?_, hout, fun s hs' => ?_⟩
    · rintro y rfl
      exact .inl (Nat.le_refl _)
    · rcases List.mem_append.mp hs' with hs' | hs'
      · exact .inl hs'
      · rw [List.mem_singleton.mp hs']
        exact .inr ⟨hname, htype⟩
  | some s =>
    rw [hb] at h
    obtain ⟨hside, rfl⟩ := of_boundaryNamed? hb
    by_cases hw : s.type = wanted
    · simp only [hw, if_true] at h
      cases h
      exact .refl hs hg
    · simp only [hw, if_false] at h
      cases h
      refine ⟨hr.mono ?_, hout, fun r hr' => ?_⟩
      · rintro y rfl
        refine .inr ⟨s, mem_of_boundaryNamed? hb, rfl, hside, fun hsuits => hw ?_⟩
        rw [Suits, htype] at hsuits
        exact (Option.some.inj hsuits.2).symm
      · obtain ⟨r₀, hr₀, rfl⟩ := List.mem_map.mp hr'
        by_cases hid : r₀.id = s.id
        · cases List.inj_on_of_nodup_map hg.distinct hr₀ (mem_of_boundaryNamed? hb) hid
          right
          simp only [beq_self_eq_true, if_true]
          exact ⟨hname, htype⟩
        · left
          simpa [hid] using hr₀

theorem adapts_keepInputs (hs : t.Sane) (hg : t.Grouped) :
    Adapts options unknowns t (t.keepInputs unknowns) := by
  obtain ⟨hr, -, ho, -⟩ := keepInputs_spec hs hg unknowns
  refine ⟨hr.mono fun x hx => ?_, ho, fun s hs' => .inl ?_⟩
  · obtain ⟨s, hs', rfl⟩ := List.mem_map.mp hx
    obtain ⟨hs', hname⟩ := List.mem_filter.mp hs'
    obtain ⟨hs', hside⟩ := List.mem_filter.mp hs'
    exact .inr ⟨s, hs', rfl, by simpa using hside, fun h => by simp [h.1] at hname⟩
  · rw [boundary_keepInputs hg.distinct] at hs'
    exact (List.mem_filter.mp hs').1

end Tree

namespace Pass

variable {p p' : Pass} {options : Options} {unknowns names : List String} {t : Tree}

/-- Declaring variables, however far it comes. -/
theorem declareInputs_adapts (known : Inputs) (hs : p.tree.Sane) (hg : p.tree.Grouped)
    (hn : names ⊆ unknowns) {r : Except Fault Inputs}
    (h : declareInputs options known names p = (r, p')) :
    Tree.Adapts options unknowns p.tree p'.tree := by
  induction names generalizing known p with
  | nil =>
    cases h
    exact .refl hs hg
  | cons name rest ih =>
    obtain ⟨hname, hrest⟩ := List.cons_subset.mp hn
    rw [declareInputs_cons, bind_run, input_run] at h
    cases hk : (options.kindOf name).socketType? with
    | none =>
      rw [hk] at h
      cases h
      exact .refl hs hg
    | some type =>
      rw [hk] at h
      dsimp only at h
      have hadmits := socketFor_admits hs hg .input name type
      cases ha : p.tree.editor.adjust? type with
      | none =>
        rw [ha] at hadmits
        dsimp only at hadmits
        rw [hadmits] at h
        cases h
        exact .refl hs hg
      | some wanted =>
        rw [ha] at hadmits
        obtain ⟨x, t₁, hrun, -⟩ := hadmits
        rw [hrun] at h
        have hfirst : Tree.Adapts options unknowns p.tree t₁ :=
          Tree.adapts_socketFor hs hg hname ha (by rw [Editor.boundaryType?, hk]; exact ha) hrun
        exact hfirst.trans (ih _ (p := { p with tree := t₁, counts := _ }) hfirst.redraws.sane
          hfirst.redraws.grouped hrest h)

theorem openInputs_adapts (hs : p.tree.Sane) (hg : p.tree.Grouped) {r : Except Fault Inputs}
    (h : openInputs unknowns options p = (r, p')) :
    Tree.Adapts options unknowns p.tree p'.tree := by
  unfold openInputs at h
  rw [bind_run] at h
  rcases hd : declareInputs options [] unknowns p with ⟨e | inputs, p₁⟩
  · rw [hd] at h
    cases h
    exact declareInputs_adapts [] hs hg (List.Subset.refl _) hd
  · rw [hd] at h
    have hfirst := declareInputs_adapts [] hs hg (List.Subset.refl unknowns) hd
    cases h
    exact hfirst.trans (Tree.adapts_keepInputs hfirst.redraws.sane hfirst.redraws.grouped)

/-- A pass over a tidy tree that fails has edited the boundary for its variables
and added to the tree. -/
theorem synthesis_fault {term : Term} {fault : Fault} (ht : t.Tidy) (hw : term.WellMade)
    (ho : ∀ f ∈ term.calls, f.offeredBy t.editor = true)
    (h : synthesis unknowns term options (start t) = (.error fault, p')) :
    ∃ t₁, Tree.Adapts options unknowns (t.setActive (some .groupInput)) t₁ ∧
      Tree.Adds t₁ p'.tree ∧ p'.tree.boundary = t₁.boundary := by
  have adapts : ∀ {r : Except Fault Inputs} {p : Pass}, openInputs unknowns options (start t) =
      (r, p) → Tree.Adapts options unknowns (t.setActive (some .groupInput)) p.tree :=
    fun hopen => openInputs_adapts (p := start t) (ht.setActive _).sane
      (ht.setActive _).grouped hopen
  obtain ⟨r, p, hrun, hstaged, -⟩ := synthesis_ends ht hw ho unknowns options
  cases h.symm.trans hrun
  cases hstaged with
  | undeclared opens => exact ⟨p'.tree, adapts opens, .refl, rfl⟩
  | unfinished opens _ _ adds => exact ⟨_, adapts opens, adds.adds, adds.boundary⟩

end Pass

namespace Tree

variable {t t' t₁ : Tree} {options : Options} {unknowns : List String} {text : String}

theorem not_alters (hs : t.Sane) (hg : t.Grouped) {s : Socket} (hm : s ∈ t.boundary)
    (h : s.side = .input → t.Suits options unknowns s) : ¬t.Alters options unknowns s.id := by
  rintro (hle | ⟨r, hr, hid, hside, hnot⟩)
  · have := hg.below hs hm
    omega
  · cases List.inj_on_of_nodup_map hg.distinct hr hm hid
    exact hnot (h hside)

/-- A link is kept if it does not come from an input that is altered. -/
theorem not_alters_ends (hs : t.Sane) (hg : t.Grouped) {l : Link} (hl : l ∈ t.links)
    (h : ∀ s ∈ t.socketsOn .input, s.id = l.source.socket → t.Suits options unknowns s)
    {x : SocketId} (hx : t.Alters options unknowns x) : l.touchesSocket x = false := by
  obtain ⟨hout, hin⟩ := hs.ends l hl
  have below : ∀ {r : SocketRef} {n : Node}, t.node? r.node = some n → r.socket ∈ n.socketIds →
      r.socket.index < t.supply := fun hn hmem => hs.socketsBelow _ _ _ hn hmem
  obtain ⟨n, hn, hout'⟩ := hout
  obtain ⟨m, hm, hin'⟩ := hin
  have hsource := below hn (List.mem_append_right _ hout')
  have htarget := below hm (List.mem_append_left _ hin')
  simp only [Link.touchesSocket, Bool.or_eq_false_iff, beq_eq_false_iff_ne]
  rcases hx with hle | ⟨s, hs', rfl, hside, hnot⟩
  · constructor <;> rintro rfl <;> omega
  · refine ⟨fun heq => hnot (h s (List.mem_filter.mpr ⟨hs', by simp [hside]⟩) heq.symm), ?_⟩
    -- an input of the tree shows as an output inside, so no link leads to it
    obtain ⟨i, hi, hshown, -⟩ := hg.input
    have hasOutput : t.HasOutput ⟨.groupInput, s.id⟩ := by
      refine ⟨i, hi, ?_⟩
      rw [Node.outputIds, hshown]
      exact mem_ids_shownInside.mpr ⟨s, hs', hside, rfl⟩
    exact fun heq => hs.output_ne_input hasOutput ⟨m, hm, hin'⟩ heq.symm

structure Spares (options : Options) (unknowns : List String) (t t' : Tree) : Prop where
  /-- Every node stays, with its name and type. -/
  nodes : ∀ n ∈ t.nodes, ∃ n' ∈ t'.nodes, n'.id = n.id ∧ n'.name = n.name ∧ n'.type = n.type
  /-- Every output stays as it is. -/
  outputs : t'.socketsOn .output = t.socketsOn .output
  /-- An input stays as it is if it suits the variables. -/
  inputs : ∀ s ∈ t.socketsOn .input, t.Suits options unknowns s → s ∈ t'.socketsOn .input
  /-- A link stays if it leads to a node that is not generated and comes from no
  input that does not suit the variables. -/
  links : ∀ l ∈ t.links, (∀ n, t.node? l.target.node = some n → Tag.isTag n.name = false) →
    (∀ s ∈ t.socketsOn .input, s.id = l.source.socket → t.Suits options unknowns s) → l ∈ t'.links

theorem name_mirrored (n : Node) : (t.mirrored n).name = n.name ∧ (t.mirrored n).type = n.type := by
  unfold mirrored
  split
  · exact ⟨rfl, rfl⟩
  · split <;> exact ⟨rfl, rfl⟩

theorem spares_of_adapts (hs : t.Sane) (hg : t.Grouped) (ha : Adapts options unknowns t t₁)
    (hadds : Adds t₁ t') (hb : t'.boundary = t₁.boundary) : Spares options unknowns t t' := by
  obtain ⟨hr, ho, -⟩ := ha
  have shown : ∀ side, t'.socketsOn side = t₁.socketsOn side := by
    intro side
    rw [socketsOn, hb, socketsOn]
  have node : ∀ {id n}, t.node? id = some n → t₁.node? id = some (t₁.mirrored n) := by
    intro id n hn
    rw [hr.node?, hn]
    rfl
  refine ⟨?_, (shown .output).trans ho, ?_, ?_⟩
  · intro n hn
    obtain ⟨n', hn', hname, htype⟩ := hadds.nodes _ _ (node (node?_of_mem hs.nodes hn))
    obtain ⟨hname₁, htype₁⟩ := name_mirrored (t := t₁) n
    exact ⟨n', mem_of_node? hn', id_of_node? hn', hname.trans hname₁, htype.trans htype₁⟩
  · intro s hs' hsuits
    obtain ⟨hmem, hside⟩ := List.mem_filter.mp hs'
    rw [shown]
    exact List.mem_filter.mpr ⟨hr.sockets s hmem (not_alters hs hg hmem fun _ => hsuits), hside⟩
  · intro l hl htarget hsource
    obtain ⟨-, n, hn, -⟩ := hs.ends l hl
    have hl₁ := hr.kept l hl fun x hx => not_alters_ends hs hg hl hsource hx
    refine hadds.links l hl₁ _ (node hn) ?_
    rw [(name_mirrored n).1]
    exact htarget n hn

/-- A failed call leaves a tidy tree as it is, or edits the boundary for the
variables of the text and adds to the tree. -/
theorem compile_fault_spares {fault : Fault} (h : t.Tidy)
    (hc : compile text options t = (.error fault, t')) :
    t' = t ∨ ∃ plain term, Typed.read text options = .ok (plain, term) ∧
      Spares options plain.unknowns t t' := by
  rw [compile_run] at hc
  rcases hread : Typed.read text options with e | ⟨plain, term⟩
  · rw [hread] at hc
    cases hc
    exact .inl rfl
  · rw [hread] at hc
    change realize plain.unknowns term options t = _ at hc
    rw [realize_run] at hc
    cases hu : term.unavailable? t.editor with
    | some f =>
      rw [hu] at hc
      cases hc
      exact .inl rfl
    | none =>
      rw [hu] at hc
      obtain ⟨hr, rfl⟩ := Prod.mk.inj hc
      obtain ⟨t₁, hadapts, hadds, hboundary⟩ := Pass.synthesis_fault h
        (Typed.wellMade_of_read hread) (Term.unavailable?_eq_none_iff.mp hu) (eq_of_fst hr)
      have hs := (h.setActive (some .groupInput)).sane
      have hg := (h.setActive (some .groupInput)).grouped
      obtain ⟨hnodes, houtputs, hinputs, hlinks⟩ := spares_of_adapts hs hg hadapts hadds hboundary
      exact .inr ⟨plain, term, rfl, hnodes, houtputs, hinputs, hlinks⟩

/-- The node of the last success still feeds the output after a failure. -/
theorem compile_fault_spares_feed :
    ∃ t l fault, t = (compile "a+b" {} (empty .geometry)).2 ∧ l ∈ t.links ∧
      l.target.node = .groupOutput ∧
      (compile "r*c" (Options.declare {} "r" .rotation) t).1 = .error fault ∧
      l ∈ (compile "r*c" (Options.declare {} "r" .rotation) t).2.links := by
  have ht := ((Compiled.empty .geometry).compile "a+b" {}).tidy
  have hr : (compile "r*c" (Options.declare {} "r" .rotation)
      (compile "a+b" {} (empty .geometry)).2).1 =
        .error (.unsupportedKinds .mult [.rotation, .scalar]) := by decide +kernel
  have hl : (⟨⟨12⟩, ⟨⟨4⟩, ⟨8⟩⟩, ⟨.groupOutput, ⟨11⟩⟩⟩ : Link) ∈
      (compile "a+b" {} (empty .geometry)).2.links := by decide +kernel
  refine ⟨_, _, _, rfl, hl, rfl, hr, ?_⟩
  rcases compile_fault_spares ht (eq_of_fst hr) with heq | ⟨plain, term, -, hspares⟩
  · rwa [heq]
  · have hinner : ∀ s ∈ (compile "a+b" {} (empty .geometry)).2.socketsOn .input, s.id ≠ ⟨8⟩ := by
      decide +kernel
    exact hspares.links _ hl (by decide +kernel) fun s hs heq => absurd heq (hinner s hs)

/-- A call that fails may have turned a node of the last success around: the
links into it are others, while it still feeds the output. -/
theorem compile_fault_rewires :
    ∃ t t' fault l l', t = (compile "a*b-(a+b)" {} (empty .geometry)).2 ∧
      compile "(a+b)-a*b-min(v,1)" (Options.declare {} "v" .vector) t = (.error fault, t') ∧
      l ∈ t.links ∧ l ∉ t'.links ∧ l' ∈ t.links ∧ l' ∈ t'.links ∧
      l.target.node = l'.source.node ∧ l'.target.node = .groupOutput := by
  have hr : (compile "(a+b)-a*b-min(v,1)" (Options.declare {} "v" .vector)
      (compile "a*b-(a+b)" {} (empty .geometry)).2).1 =
        .error (.vectorArgument .min "a") := by decide +kernel
  exact ⟨_, _, _, ⟨⟨23⟩, ⟨⟨4⟩, ⟨8⟩⟩, ⟨⟨18⟩, ⟨19⟩⟩⟩, ⟨⟨26⟩, ⟨⟨18⟩, ⟨22⟩⟩, ⟨.groupOutput, ⟨25⟩⟩⟩, rfl,
    eq_of_fst hr, by decide +kernel, by decide +kernel, by decide +kernel, by decide +kernel, rfl,
    rfl⟩

end Tree

end FormulaGraph
