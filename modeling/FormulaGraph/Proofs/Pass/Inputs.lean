import FormulaGraph.Proofs.Graph.BoundaryKeeps
import FormulaGraph.Proofs.Pass.Steps

/-!
The variables of a formula as inputs of the tree. Declaring them edits the
boundary alone, and declaring them again changes nothing.
-/

namespace FormulaGraph

open Run

def Editor.boundaryType? (editor : Editor) (kind : Kind) : Option SocketType :=
  kind.socketType?.bind editor.adjust?

namespace Tree

variable {t t' : Tree}

theorem boundaryNamed?_eq (side : Side) (name : String) :
    t.boundaryNamed? side name = (t.socketsOn side).find? (·.name == name) := by
  unfold boundaryNamed? socketsOn
  rw [List.find?_filter]
  simp only [Bool.decide_and, Bool.decide_eq_true]

theorem keepInputs_of_none {keep : List String} (h : t.inputsExcept keep = []) :
    t.keepInputs keep = t := by
  unfold keepInputs
  rw [h]
  rfl

theorem inputsExcept_congr (h : t'.socketsOn .input = t.socketsOn .input)
    (keep : List String) : t'.inputsExcept keep = t.inputsExcept keep := by
  unfold inputsExcept
  rw [h]

end Tree

namespace Pass

variable {t : Tree} {p p' : Pass} {options : Options} {known inputs : Inputs} {names : List String}
  {ε α : Type} {t' : Tree}

abbrev Redrawn (t t' : Tree) : Prop := Tree.Reboundary (fun _ => True) t t'

theorem edit_run (toFault : ε → Fault) (e : Edit ε α) :
    edit toFault e p = ((e p.tree).1.mapError toFault, { p with tree := (e p.tree).2 }) := rfl

theorem edit_bind {β : Type} (toFault : ε → Fault) (e : Edit ε α) (k : α → PassM β) :
    (edit toFault e >>= k) p =
      match e p.tree with
      | (.error fault, t) => (.error (toFault fault), { p with tree := t })
      | (.ok a, t) => k a { p with tree := t } := by
  rw [bind_run, edit_run]
  rcases e p.tree with ⟨fault | a, t⟩ <;> rfl

theorem input_run (name : String) (kind : Kind) : input name kind none p =
    match kind.socketType? with
    | none => (.error (.inputKind name kind), p)
    | some type =>
      match Tree.socketFor .input name type p.tree with
      | (.error fault, t) => (.error (.boundary fault), { p with tree := t })
      | (.ok id, t) =>
        (.ok ⟨kind, p.counts.get kind, ⟨.groupInput, id⟩, some name⟩,
          { p with tree := t, counts := p.counts.bump kind }) := by
  unfold input
  cases kind.socketType? with
  | none => rfl
  | some type =>
    dsimp only
    rw [edit_bind]
    rcases Tree.socketFor .input name type p.tree with ⟨r | id, t⟩ <;> rfl

structure Admits (side : Side) (name : String) (x : SocketId) (type : SocketType) (t t' : Tree) :
    Prop where
  redrawn : Tree.Reboundary (· = x) t t'
  socket : ∃ s, t'.boundaryNamed? side name = some s ∧ s.id = x ∧ s.type = type
  others : ∀ side' name', side' ≠ side ∨ name' ≠ name →
    t'.boundaryNamed? side' name' = t.boundaryNamed? side' name'
  same : ∀ s, t.boundaryNamed? side name = some s → x = s.id
  fresh : t.boundaryNamed? side name = none → x = ⟨t.supply⟩
  opposite : t'.socketsOn side.opposite = t.socketsOn side.opposite

/-- A boundary socket can be had if the editor has its type. -/
theorem socketFor_admits (hs : t.Sane) (hg : t.Grouped) (side : Side) (name : String)
    (type : SocketType) : match t.editor.adjust? type with
    | none => Tree.socketFor side name type t = (.error (.unavailable type t.editor), t)
    | some wanted => ∃ x t', Tree.socketFor side name type t = (.ok x, t') ∧
        Admits side name x wanted t t' := by
  cases ha : t.editor.adjust? type with
  | none =>
    have hadjust : t.adjustType type = .error (.unavailable type t.editor) := by
      unfold Tree.adjustType
      rw [ha]
    dsimp only
    rw [Tree.socketFor_run hg.distinct, hadjust]
  | some wanted =>
    have hadjust : t.adjustType type = .ok wanted := by
      unfold Tree.adjustType
      rw [ha]
    obtain ⟨x, t', hrun⟩ : ∃ x t', Tree.socketFor side name type t = (.ok x, t') := by
      rw [Tree.socketFor_run hg.distinct, hadjust]
      dsimp only
      split <;> exact ⟨_, _, rfl⟩
    obtain ⟨hreb, ⟨s, hnamed, hid, hadj⟩, hout⟩ := Tree.socketFor_spec hs hg hrun
    rw [hadjust] at hadj
    cases hadj
    refine ⟨x, t', hrun, hreb, ⟨s, hnamed, hid, rfl⟩,
      fun side' name' hne => Tree.socketFor_others hg hrun hne,
      fun s' hs' => Tree.socketFor_id hg hrun hs', fun hnone => ?_, hout⟩
    rw [Tree.socketFor_run hg.distinct, hadjust, hnone] at hrun
    cases hrun
    rfl

/-- An input can be had if its kind has a type on the boundary. -/
theorem input_spec (hs : p.tree.Sane) (hg : p.tree.Grouped) (name : String) (kind : Kind) :
    match p.tree.editor.boundaryType? kind with
    | none => ∃ fault, input name kind none p = (.error fault, p) ∧
        (fault.faultClass = .type ∨ fault.faultClass = .unavailable)
    | some type => ∃ x t, Admits .input name x type p.tree t ∧ input name kind none p =
        (.ok ⟨kind, p.counts.get kind, ⟨.groupInput, x⟩, some name⟩,
          { p with tree := t, counts := p.counts.bump kind }) := by
  rw [input_run]
  unfold Editor.boundaryType?
  cases hk : kind.socketType? with
  | none => exact ⟨_, rfl, .inl rfl⟩
  | some type =>
    dsimp only [Option.bind_some]
    have hadmits := socketFor_admits hs hg .input name type
    cases ha : p.tree.editor.adjust? type with
    | none =>
      rw [ha] at hadmits
      dsimp only at hadmits
      rw [hadmits]
      exact ⟨_, rfl, .inr rfl⟩
    | some wanted =>
      rw [ha] at hadmits
      obtain ⟨x, t, hrun, hadmits⟩ := hadmits
      rw [hrun]
      exact ⟨x, t, hadmits, rfl⟩

theorem input_of_named {name : String} {kind : Kind} {s : Socket} (hg : p.tree.Grouped)
    (hb : p.tree.boundaryNamed? .input name = some s)
    (ht : p.tree.editor.boundaryType? kind = some s.type) : input name kind none p =
      (.ok ⟨kind, p.counts.get kind, ⟨.groupInput, s.id⟩, some name⟩,
        { p with counts := p.counts.bump kind }) := by
  obtain ⟨type, hk, ha⟩ := Option.bind_eq_some_iff.mp ht
  have hadjust : p.tree.adjustType type = .ok s.type := by
    unfold Tree.adjustType
    rw [ha]
  rw [input_run, hk]
  dsimp only
  rw [Tree.socketFor_of_named hg hb hadjust]

def Names (options : Options) (t : Tree) (name : String) (h : Handle) : Prop :=
  h.kind = options.kindOf name ∧ ∃ s, t.boundaryNamed? .input name = some s ∧
    h.socket = ⟨.groupInput, s.id⟩ ∧ t.editor.boundaryType? h.kind = some s.type

structure Declares (options : Options) (known : Inputs) (names : List String) (p : Pass)
    (inputs : Inputs) (t : Tree) (counts : HandleCounts) : Prop where
  redrawn : Redrawn p.tree t
  outputs : t.socketsOn .output = p.tree.socketsOn .output
  others : ∀ name, name ∉ names →
    t.boundaryNamed? .input name = p.tree.boundaryNamed? .input name
  persist : ∀ name s, p.tree.boundaryNamed? .input name = some s →
    ∃ s', t.boundaryNamed? .input name = some s' ∧ s'.id = s.id
  sockets : ∀ name ∈ names, ∃ s, t.boundaryNamed? .input name = some s ∧
    t.editor.boundaryType? (options.kindOf name) = some s.type
  handles : ∀ e ∈ inputs, e ∈ known ∨ e.1 ∈ names ∧ Names options t e.1 e.2
  again : ∀ q : Pass, q.tree.Grouped → q.tree.editor = p.tree.editor → q.counts = p.counts →
    (∀ name ∈ names, q.tree.boundaryNamed? .input name = t.boundaryNamed? .input name) →
    declareInputs options known names q = (.ok inputs, { q with counts })

theorem declareInputs_cons (name : String) (rest : List String) :
    declareInputs options known (name :: rest) p = (do
      let handle ← input name (options.kindOf name) none
      declareInputs options ((name, handle) :: known) rest : PassM Inputs) p := rfl

theorem boundaryType?_congr (h : t'.editor = t.editor) (kind : Kind) :
    t'.editor.boundaryType? kind = t.editor.boundaryType? kind := by rw [h]

theorem declareInputs_spec (known : Inputs) (hs : p.tree.Sane) (hg : p.tree.Grouped)
    (hk : ∀ name ∈ names, (p.tree.editor.boundaryType? (options.kindOf name)).isSome) :
    ∃ inputs t c, declareInputs options known names p =
        (.ok inputs, { p with tree := t, counts := c }) ∧
      Declares options known names p inputs t c := by
  induction names generalizing known p with
  | nil =>
    refine ⟨known, p.tree, p.counts, rfl, .refl hs hg, rfl, fun _ _ => rfl,
      fun _ s hs => ⟨s, hs, rfl⟩, by simp, fun e he => .inl he, ?_⟩
    intro q _ _ hc _
    rw [← hc]
    rfl
  | cons name rest ih =>
    obtain ⟨type, htype⟩ := Option.isSome_iff_exists.mp (hk name (by simp))
    have hspec := input_spec hs hg name (options.kindOf name)
    rw [htype] at hspec
    obtain ⟨x, t₁, hnew, hrun⟩ := hspec
    have hr₁ : Redrawn p.tree t₁ := hnew.redrawn.mono fun _ _ => trivial
    let h₁ : Handle := ⟨options.kindOf name, p.counts.get (options.kindOf name),
      ⟨.groupInput, x⟩, some name⟩
    let p₁ : Pass := { p with tree := t₁, counts := p.counts.bump (options.kindOf name) }
    obtain ⟨inputs, t, c, hrest, hd⟩ : ∃ inputs t c,
        declareInputs options ((name, h₁) :: known) rest p₁ =
          (.ok inputs, { p₁ with tree := t, counts := c }) ∧
        Declares options ((name, h₁) :: known) rest p₁ inputs t c :=
      ih _ hr₁.sane hr₁.grouped fun n hn => by
        rw [boundaryType?_congr hr₁.editor]
        exact hk n (by simp [hn])
    obtain ⟨s₁, hs₁, hid₁, htype₁⟩ := hnew.socket
    obtain ⟨s, hs', hid⟩ := hd.persist name s₁ hs₁
    have heditor : t.editor = p.tree.editor := hd.redrawn.editor.trans hr₁.editor
    have hstype : t.editor.boundaryType? (options.kindOf name) = some s.type := by
      by_cases hn : name ∈ rest
      · obtain ⟨s', hs'', htype'⟩ := hd.sockets name hn
        rw [hs'] at hs''
        cases hs''
        exact htype'
      · have := hd.others name hn
        rw [hs', hs₁] at this
        cases this
        rw [heditor, htype, htype₁]
    refine ⟨inputs, t, c, ?_, ?_⟩
    · rw [declareInputs_cons, bind_of_ok hrun]
      exact hrest
    · exact {
        redrawn := hr₁.trans hd.redrawn
        outputs := hd.outputs.trans hnew.opposite
        others := by
          intro n hn
          rw [List.mem_cons, not_or] at hn
          exact (hd.others n hn.2).trans (hnew.others .input n (.inr hn.1))
        persist := by
          intro n r hr
          by_cases hn : n = name
          · subst hn
            exact ⟨s, hs', hid.trans (hid₁.trans (hnew.same r hr))⟩
          · exact hd.persist n r ((hnew.others .input n (.inr hn)).trans hr)
        sockets := by
          intro n hn
          rcases List.mem_cons.mp hn with rfl | hn
          · exact ⟨s, hs', hstype⟩
          · exact hd.sockets n hn
        handles := by
          intro e he
          rcases hd.handles e he with hknown | ⟨hn, hnames⟩
          · rcases List.mem_cons.mp hknown with rfl | hknown
            · exact .inr ⟨by simp, rfl, s, hs', by rw [hid, hid₁], hstype⟩
            · exact .inl hknown
          · exact .inr ⟨by simp [hn], hnames⟩
        again := by
          intro q hq hqe hqc hqn
          have hqs := hqn name (by simp)
          rw [hs'] at hqs
          have hqrun : input name (options.kindOf name) none q =
              (.ok h₁, { q with counts := q.counts.bump (options.kindOf name) }) := by
            rw [input_of_named hq hqs (by rw [hqe, ← heditor]; exact hstype), hqc, hid, hid₁]
          rw [declareInputs_cons, bind_of_ok hqrun]
          exact hd.again _ hq (hqe.trans hr₁.editor.symm) (congrArg (HandleCounts.bump · _) hqc)
            fun n hn => hqn n (by simp [hn]) }

/-- A kind that has no type on the boundary cannot be declared. -/
theorem declareInputs_fault (known : Inputs) (hs : p.tree.Sane) (hg : p.tree.Grouped)
    (hk : ∃ name ∈ names, p.tree.editor.boundaryType? (options.kindOf name) = none) :
    ∃ fault t c, declareInputs options known names p =
        (.error fault, { p with tree := t, counts := c }) ∧
      (fault.faultClass = .type ∨ fault.faultClass = .unavailable) ∧ Redrawn p.tree t := by
  induction names generalizing known p with
  | nil =>
    obtain ⟨_, hn, -⟩ := hk
    cases hn
  | cons name rest ih =>
    have hspec := input_spec hs hg name (options.kindOf name)
    cases htype : p.tree.editor.boundaryType? (options.kindOf name) with
    | none =>
      rw [htype] at hspec
      obtain ⟨fault, hrun, hclass⟩ := hspec
      refine ⟨fault, p.tree, p.counts, ?_, hclass, .refl hs hg⟩
      rw [declareInputs_cons, bind_of_error hrun]
    | some type =>
      rw [htype] at hspec
      obtain ⟨x, t₁, hnew, hrun⟩ := hspec
      have hr₁ : Redrawn p.tree t₁ := hnew.redrawn.mono fun _ _ => trivial
      let p₁ : Pass := { p with tree := t₁, counts := p.counts.bump (options.kindOf name) }
      obtain ⟨n, hn, hnone⟩ := hk
      have hn' : n ∈ rest := by
        rcases List.mem_cons.mp hn with rfl | hn
        · rw [htype] at hnone
          cases hnone
        · exact hn
      obtain ⟨fault, t, c, hrest, hclass, hr⟩ :=
        ih ((name, _) :: known) (p := p₁) hr₁.sane hr₁.grouped
        ⟨n, hn', by rw [boundaryType?_congr hr₁.editor]; exact hnone⟩
      refine ⟨fault, t, c, ?_, hclass, hr₁.trans hr⟩
      rw [declareInputs_cons, bind_of_ok hrun]
      exact hrest

theorem lookup_of_declareInputs (h : declareInputs options known names p = (.ok inputs, p'))
    {n : String}
    (hn : n ∈ names ∨ known.lookup n ≠ none) : inputs.lookup n ≠ none := by
  induction names generalizing known p with
  | nil =>
    cases h
    simpa using hn
  | cons name rest ih =>
    obtain ⟨handle, p₁, -, h⟩ := bind_eq_ok.mp h
    refine ih h ?_
    rw [List.lookup_cons]
    rcases hn with hn | hn
    · rcases List.mem_cons.mp hn with rfl | hn
      · simp
      · exact .inl hn
    · right
      split
      · simp
      · exact hn

def openInputs (unknowns : List String) (options : Options) : PassM Inputs := do
  let inputs ← declareInputs options [] unknowns
  modifyTree (·.keepInputs unknowns)
  return inputs

/-- The inputs are opened by edits of the boundary, and they stay the same when
they are opened again. -/
theorem openInputs_spec {unknowns : List String} (hs : p.tree.Sane)
    (hg : p.tree.Grouped) (h : openInputs unknowns options p = (.ok inputs, p')) :
    ∃ t counts, p' = { p with tree := t, counts } ∧ Redrawn p.tree t ∧
      (∀ e ∈ inputs, e.2.node = .groupInput) ∧
      ∀ q : Pass, q.tree.Grouped → q.tree.editor = p.tree.editor → q.counts = p.counts →
        q.tree.socketsOn .input = t.socketsOn .input →
        openInputs unknowns options q = (.ok inputs, { q with counts }) := by
  by_cases hk : ∀ name ∈ unknowns, (p.tree.editor.boundaryType? (options.kindOf name)).isSome
  · obtain ⟨inputs', t, counts, hrun, hd⟩ := declareInputs_spec [] hs hg hk
    have hopen : openInputs unknowns options p =
        (.ok inputs', { p with tree := t.keepInputs unknowns, counts }) := by
      unfold openInputs
      rw [bind_of_ok hrun]
      rfl
    rw [hopen] at h
    cases h
    obtain ⟨hr, hnone, -, hnamed⟩ := Tree.keepInputs_spec hd.redrawn.sane
      hd.redrawn.grouped unknowns
    refine ⟨_, counts, rfl, hd.redrawn.trans (hr.mono fun _ _ => trivial), ?_, ?_⟩
    · intro e he
      rcases hd.handles e he with h | ⟨-, -, s, -, hsocket, -⟩
      · cases h
      · exact congrArg SocketRef.node hsocket
    · intro q hq heditor hcounts hinputs
      unfold openInputs
      rw [bind_of_ok (hd.again q hq heditor hcounts fun name hname => by
        rw [← hnamed name hname, Tree.boundaryNamed?_eq, Tree.boundaryNamed?_eq, hinputs])]
      show (Except.ok inputs, { q with counts, tree := q.tree.keepInputs unknowns }) = _
      rw [Tree.keepInputs_of_none (by rw [Tree.inputsExcept_congr hinputs]; exact hnone)]
  · have hk : ∃ name ∈ unknowns, p.tree.editor.boundaryType? (options.kindOf name) = none := by
      simpa using hk
    obtain ⟨fault, t, c, hrun, -⟩ := declareInputs_fault [] hs hg hk
    unfold openInputs at h
    rw [bind_of_error hrun] at h
    cases h

theorem mem_tagIndex {e : String × NodeId} :
    e ∈ tagIndex t ↔ ∃ n ∈ t.nodes, Tag.isTag n.name = true ∧ e = (n.name, n.id) := by
  unfold tagIndex
  rw [List.mem_reverse, List.mem_map]
  constructor
  · rintro ⟨n, hn, rfl⟩
    obtain ⟨hn, htag⟩ := List.mem_filter.mp hn
    exact ⟨n, hn, htag, rfl⟩
  · rintro ⟨n, hn, htag, rfl⟩
    exact ⟨n, List.mem_filter.mpr ⟨hn, htag⟩, rfl⟩

/-- A pass starts sound, also when the boundary was edited first. -/
theorem sound_start (hs : t.Sane) (hg : t.Grouped) {counts : HandleCounts}
    (hr : Redrawn (t.setActive (some .groupInput)) t') :
    Sound { start t with tree := t', counts := counts } where
  sane := hr.sane
  grouped := hr.grouped
  found := by
    intro tag id h
    obtain ⟨n, hn, htag, heq⟩ := mem_tagIndex.mp
      (mem_of_lookup (show (tagIndex t).lookup tag = some id from h))
    cases heq
    refine ⟨htag, t'.mirrored n, ?_, ?_⟩
    · show t'.node? n.id = _
      rw [hr.node?]
      show (t.node? n.id).map _ = _
      rw [Tree.node?_of_mem hs.nodes hn]
      rfl
    · unfold Tree.mirrored
      split
      · rfl
      · split <;> rfl
  used := by
    intro id h
    cases h
  settled := by
    intro e h
    cases h
  entries := by
    intro e h
    cases h
  active := by
    refine ⟨.groupInput, ?_, .inl rfl⟩
    show t'.active = _
    rw [hr.active]
    obtain ⟨n, hn, -⟩ := hg.input
    have : t.contains .groupInput = true := Tree.contains_iff.mpr ⟨n, hn⟩
    simp [Tree.setActive, this]

end Pass

end FormulaGraph
