import FormulaGraph.Proofs.HostEdits
import FormulaGraph.Proofs.Pass.Reach

/-!
The boundary follows the formula. After a pass the inputs are the variables, in
the order in which they came to be there; outputs stay where they are, and only
the one that the pass is for is changed or fed anew. So what a host has linked
from outside to a socket that stays still finds it.
-/

namespace FormulaGraph

open Run Relation

variable {s : Socket}

namespace Tree

variable {t t' : Tree}

/-- The boundary of a tree after variables became its inputs and a value was
assigned to an output. -/
structure Synced (unknowns : List String) (options : Options) (t t' : Tree) : Prop where
  names : ∀ name, name ∈ t'.inputNames ↔ name ∈ unknowns
  types : ∀ s ∈ t'.socketsOn .input,
    t.editor.boundaryType? (options.kindOf s.name) = some s.type
  inputs : ∃ fresh,
    t'.socketsOn .input = ((t.socketsOn .input).filter (·.name ∈ unknowns)).map
      (·.fitted fun name => t.editor.boundaryType? (options.kindOf name)) ++ fresh ∧
    fresh.map (·.name) = (unknowns.filter (· ∉ t.inputNames)).eraseDups ∧
    ∀ s ∈ fresh, s.default = none ∧ t.supply ≤ s.id.index
  outputs : ∃ kept added, t'.socketsOn .output = kept ++ added ∧
    List.Forall₂ (fun s s' => s'.id = s.id ∧ s'.name = s.name ∧
      (s.name ≠ options.outputName → s' = s)) (t.socketsOn .output) kept ∧
    added.map (·.name) =
      [options.outputName].filter (· ∉ (t.socketsOn .output).map (·.name))
  links : ∀ s ∈ t.socketsOn .output, s.name ≠ options.outputName → ∀ l ∈ t.links,
    l.target.socket = s.id → l.source.node ≠ .groupInput → t'.contains l.source.node = true →
      l ∈ t'.links

section Valid

/-- Sockets are told apart if those of each side are, and the sides. -/
theorem nodup_map_of_sides {α : Type} {f : Socket → α} {l : List Socket}
    (hside : ∀ side, ((l.filter (·.side == side)).map f).Nodup)
    (hcross : ∀ a ∈ l, ∀ b ∈ l, a.side ≠ b.side → f a ≠ f b) : (l.map f).Nodup := by
  induction l with
  | nil => exact List.nodup_nil
  | cons a l ih =>
    rw [List.map_cons, List.nodup_cons]
    constructor
    · intro hmem
      obtain ⟨b, hb, heq⟩ := List.mem_map.mp hmem
      by_cases hab : b.side = a.side
      · have hfirst := hside a.side
        rw [List.filter_cons_of_pos (by simp), List.map_cons, List.nodup_cons] at hfirst
        refine hfirst.1 (heq ▸ List.mem_map_of_mem (List.mem_filter.mpr ⟨hb, ?_⟩))
        rw [hab, beq_self_eq_true]
      · exact hcross b (List.mem_cons_of_mem a hb) a List.mem_cons_self hab heq
    · refine ih (fun side => ?_) fun b hb c hc =>
        hcross b (List.mem_cons_of_mem a hb) c (List.mem_cons_of_mem a hc)
      exact (hside side).sublist (((List.sublist_cons_self a l).filter _).map f)

variable (hv : t.Valid)
include hv

theorem Valid.shown (side : Side) : ∃ n, t.node? (Pass.groupNode side) = some n ∧
    ((t.socketsOn side).map (·.id)).Sublist n.socketIds := by
  have ids : ∀ {l l' : List Socket}, l.map Socket.face = l'.map Socket.face →
      l.map (·.id) = l'.map (·.id) := by
    intro l l' h
    have hfst := congrArg (List.map Prod.fst) h
    rwa [List.map_map, List.map_map] at hfst
  cases side with
  | input =>
    obtain ⟨n, hn, hface⟩ := hv.shownInputs
    refine ⟨n, hn, ?_⟩
    rw [← ids hface]
    exact List.sublist_append_right _ _
  | output =>
    obtain ⟨n, hn, hface⟩ := hv.shownOutputs
    refine ⟨n, hn, ?_⟩
    rw [← ids hface]
    exact List.sublist_append_left _ _

theorem Valid.mem_shown (hs : s ∈ t.boundary) :
    ∃ n, t.node? (Pass.groupNode s.side) = some n ∧ s.id ∈ n.socketIds := by
  obtain ⟨n, hn, hsub⟩ := hv.shown s.side
  refine ⟨n, hn, hsub.subset (List.mem_map_of_mem (List.mem_filter.mpr ⟨hs, ?_⟩))⟩
  rw [beq_self_eq_true]

variable (hs : t.Sane)
include hs

theorem Valid.identified : t.Identified where
  ids := by
    refine nodup_map_of_sides (fun side => ?_) fun a ha b hb hab heq => ?_
    · obtain ⟨n, hn, hsub⟩ := hv.shown side
      exact (hs.distinct _ n hn).sublist hsub
    · obtain ⟨n, hn, hmem⟩ := hv.mem_shown ha
      obtain ⟨m, hm, hmem'⟩ := hv.mem_shown hb
      have hnode := hs.owner _ _ n m a.id hn hm hmem (heq ▸ hmem')
      revert hab hnode
      cases a.side <;> cases b.side <;> decide
  names := by
    refine nodup_map_of_sides (fun side => ?_) fun a _ b _ hab heq => hab (Prod.mk.inj heq).1
    refine List.Nodup.of_map Prod.snd ?_
    rw [List.map_map]
    exact hv.names side
  below := by
    intro s hs'
    obtain ⟨n, hn, hmem⟩ := hv.mem_shown hs'
    exact hs.socketsBelow _ n s.id hn hmem

theorem Valid.rooted_start
    (hg : ∀ n ∈ t.nodes, n.id.isGroup = true → n.type.isBuilt = false) : (Pass.start t).Rooted where
  supply := by
    obtain ⟨n, hn, -⟩ := hv.shownOutputs
    have hlt := hs.nodesBelow n (mem_of_node? hn)
    rwa [id_of_node? hn] at hlt
  index := by
    intro e _ hgroup n hn
    exact hg n (mem_of_node? hn) (id_of_node? hn ▸ hgroup)

/-- What feeds an output from inside is not in the way of a pass for others. -/
theorem Valid.shielded {l : Link} (hmem : s ∈ t.socketsOn .output) (hl : l ∈ t.links)
    (htarget : l.target.socket = s.id) (hsource : l.source.node ≠ .groupInput) :
    Pass.Shielded (fun side name => ¬(side = .output ∧ name = s.name)) l t := by
  obtain ⟨hmem, hside⟩ := List.mem_filter.mp hmem
  have hside := beq_iff_eq.mp hside
  obtain ⟨⟨n, hn, o, ho, hoid, m, hm, i, hi, hiid, -⟩, hapart⟩ := hv.links l hl
  have hout : l.source.socket ∈ n.socketIds :=
    List.mem_append_right _ (hoid ▸ List.mem_map_of_mem ho)
  have hin : l.target.socket ∈ m.socketIds :=
    List.mem_append_left _ (hiid ▸ List.mem_map_of_mem hi)
  obtain ⟨g, hg, hshown⟩ := hv.mem_shown hmem
  rw [hside] at hg
  have hnode : l.target.node = .groupOutput :=
    hs.owner _ _ m g l.target.socket hm hg hin (htarget ▸ hshown)
  have hinner : l.source.node.isGroup = false := by
    rw [hnode] at hapart
    simp [NodeId.isGroup, hsource, hapart]
  refine ⟨by rw [hnode]; rfl, hinner, ?_, fun x hx => ?_, fun k hk hkg hkx => ?_,
    fun r hr hN => ?_, .inl hl⟩
  · have hlt := hs.nodesBelow n (mem_of_node? hn)
    rwa [id_of_node? hn] at hlt
  · rw [Link.touchesSocket, Bool.or_eq_true, beq_iff_eq, beq_iff_eq] at hx
    rcases hx with rfl | rfl
    · exact hs.socketsBelow _ n _ hn hout
    · exact hs.socketsBelow _ m _ hm hin
  · have heq := hs.owner _ _ k m _ (node?_of_mem hs.nodes hk) hm (List.mem_append_left _ hkx) hin
    rw [heq, hnode] at hkg
    cases hkg
  · refine Bool.eq_false_iff.mpr fun htouch => ?_
    rw [Link.touchesSocket, Bool.or_eq_true, beq_iff_eq, beq_iff_eq] at htouch
    rcases htouch with hid | hid
    · obtain ⟨k, hk, hkx⟩ := hv.mem_shown hr
      have heq := hs.owner _ _ n k _ hn hk hout (hid ▸ hkx)
      rw [heq] at hinner
      revert hinner
      cases r.side <;> decide
    · have heq := (hv.identified hs).eq_of_id hr hmem (hid.symm.trans htarget)
      rw [heq] at hN
      exact hN ⟨hside, rfl⟩

end Valid

end Tree

namespace Pass

variable {name : String} {kind : Kind} {r : Report} {S : SocketId → Prop} {N : Side → String → Prop}
  {p p' : Pass} {options : Options}

theorem socketFor_asked_of_kind {side : Side} {type : SocketType} {x : SocketId} {t t' : Tree}
    (hi : t.Identified) (hk : kind.socketType? = some type)
    (h : Tree.socketFor side name type t = (.ok x, t')) : ∃ wanted added,
      t.editor.boundaryType? kind = some wanted ∧ Tree.Asked side name wanted added x t t' := by
  obtain ⟨wanted, added, hadjust, hasked⟩ := Tree.socketFor_asked hi h
  refine ⟨wanted, added, ?_, hasked⟩
  rw [Editor.boundaryType?, hk, Option.bind_some]
  unfold Tree.adjustType at hadjust
  split at hadjust <;> cases hadjust
  assumption

theorem input_asked {g : Handle} (hi : p.tree.Identified)
    (h : input name kind none p = (.ok g, p')) :
    ∃ type added x,
      p.tree.editor.boundaryType? kind = some type ∧
      Tree.Asked .input name type added x p.tree p'.tree := by
  rw [input_run] at h
  cases hk : kind.socketType? with
  | none =>
    rw [hk] at h
    cases h
  | some type =>
    rw [hk] at h
    dsimp only at h
    rcases hrun : Tree.socketFor .input name type p.tree with ⟨fault | x, t⟩ <;> rw [hrun] at h
    · cases h
    · cases h
      obtain ⟨wanted, added, htype, hasked⟩ := socketFor_asked_of_kind hi hk hrun
      exact ⟨wanted, added, x, htype, hasked⟩

theorem output_asked {g : Handle} (hi : p.tree.Identified) (h : output name kind p = (.ok g, p')) :
    ∃ type added,
      Tree.Asked .output name type added g.socket.socket p.tree p'.tree := by
  rw [output_run] at h
  cases hk : kind.socketType? with
  | none =>
    rw [hk] at h
    cases h
  | some type =>
    rw [hk] at h
    dsimp only at h
    rcases hrun : Tree.socketFor .output name type p.tree with ⟨fault | x, t⟩ <;> rw [hrun] at h
    · cases h
    · cases h
      obtain ⟨wanted, added, -, hasked⟩ := socketFor_asked_of_kind hi hk hrun
      exact ⟨wanted, added, hasked⟩

theorem declareInputs_declared {known inputs : Inputs} {names : List String}
    (hi : p.tree.Identified) (h : declareInputs options known names p = (.ok inputs, p')) :
    ∃ fresh, Tree.Declared (fun name => p.tree.editor.boundaryType? (options.kindOf name)) names
      fresh p.tree p'.tree := by
  induction names generalizing known p with
  | nil =>
    cases h
    exact ⟨[], .nil hi⟩
  | cons name rest ih =>
    rw [declareInputs_cons] at h
    obtain ⟨g, p₁, hinput, hrest⟩ := bind_eq_ok.mp h
    obtain ⟨type, added, x, htype, hasked⟩ := input_asked hi hinput
    obtain ⟨fresh, hdeclared⟩ := ih hasked.identified hrest
    rw [hasked.editor] at hdeclared
    exact ⟨added ++ fresh, hasked.declared htype hdeclared⟩

/-- The boundary when the inputs are open. -/
structure Aligned (unknowns : List String) (options : Options) (fresh : List Socket) (t t' : Tree) :
    Prop where
  identified : t'.Identified
  inputs : t'.socketsOn .input = ((t.socketsOn .input).filter (·.name ∈ unknowns)).map
    (·.fitted fun name => t.editor.boundaryType? (options.kindOf name)) ++ fresh
  outputs : t'.socketsOn .output = t.socketsOn .output
  types : ∀ name ∈ unknowns, (t.editor.boundaryType? (options.kindOf name)).isSome
  listed : fresh.map (·.name) = (unknowns.filter (· ∉ t.inputNames)).eraseDups
  made : ∀ s ∈ fresh, t.editor.boundaryType? (options.kindOf s.name) = some s.type ∧
    s.default = none ∧ t.supply ≤ s.id.index

theorem openInputs_aligned {unknowns : List String} {inputs : Inputs} (hi : p.tree.Identified)
    (h : openInputs unknowns options p = (.ok inputs, p')) :
    ∃ fresh, Aligned unknowns options fresh p.tree p'.tree := by
  obtain ⟨known, p₁, hdeclare, hkeep⟩ := bind_eq_ok.mp h
  cases hkeep
  obtain ⟨fresh, hd⟩ := declareInputs_declared hi hdeclare
  refine ⟨fresh, ?_, hd.inputs_keepInputs, hd.outputs_keepInputs, hd.types, hd.listed,
    fun s hs => (hd.made s hs).2⟩
  refine hd.identified.sublist ?_ (Tree.redresses_keepInputs unknowns).supply
  show (p₁.tree.keepInputs unknowns).boundary.Sublist p₁.tree.boundary
  rw [Tree.boundary_keepInputs hd.identified.ids]
  exact List.filter_sublist

namespace Aligned

variable {unknowns : List String} {fresh : List Socket} {t t' : Tree}
  (h : Aligned unknowns options fresh t t')
include h

theorem type_of_mem (hs : s ∈ t'.socketsOn .input) :
    t.editor.boundaryType? (options.kindOf s.name) = some s.type := by
  rw [h.inputs] at hs
  rcases List.mem_append.mp hs with hs | hs
  · obtain ⟨r, hr, rfl⟩ := List.mem_map.mp hs
    have hname : r.name ∈ unknowns := of_decide_eq_true (List.mem_filter.mp hr).2
    obtain ⟨type, htype⟩ := Option.isSome_iff_exists.mp (h.types r.name hname)
    rw [Socket.fitted_of_some htype, Socket.name_fit, Socket.type_fit, htype]
  · exact (h.made s hs).1

theorem mem_inputNames : name ∈ t'.inputNames ↔ name ∈ unknowns := by
  have hold : ((t.socketsOn .input).filter (·.name ∈ unknowns)).map
      ((·.name) ∘ (·.fitted fun name => t.editor.boundaryType? (options.kindOf name))) =
      t.inputNames.filter (· ∈ unknowns) := by
    rw [Tree.inputNames, List.filter_map]
    exact List.map_congr_left fun s _ => (Socket.fitted_keeps s).2.2
  rw [Tree.inputNames, h.inputs, List.map_append, List.map_map, hold, h.listed, List.mem_append,
    List.mem_eraseDups, List.mem_filter, List.mem_filter]
  by_cases hin : name ∈ t.inputNames <;> simp [hin]

end Aligned

/-- The stages of the end of a pass: the output is asked for, and after that
only its socket is reached. -/
theorem finish_stages {v : Operand} (hp : p.Rooted) (hi : p.tree.Identified)
    (h : finish options v p = (.ok r, p')) : ∃ type added x t,
      Tree.Asked .output options.outputName type added x p.tree t ∧
      (∀ S N, N .output options.outputName → ReflTransGen (Amends S N) p.tree t) ∧
      ∀ (S : SocketId → Prop) N, S x → ReflTransGen (Amends S N) t p'.tree := by
  obtain ⟨target, p₁, houtput, hrest⟩ := bind_eq_ok.mp h
  obtain ⟨type, added, hasked⟩ := output_asked hi houtput
  have hp₁ : p₁.Rooted := by
    have hmakes : Edits (fun _ => False) (fun _ _ => True)
        (output options.outputName (outputKindFor options.dialect v.kind)) := makes_output trivial _
    exact (Makes.of_ok hmakes hp houtput).1
  refine ⟨type, added, target.socket.socket, p₁.tree, hasked, fun S N hN => ?_, fun S N hS => ?_⟩
  · exact (Makes.of_ok (makes_output hN _) hp houtput).2
  · exact (Makes.of_ok (.bind (makes_assign hS v) fun _ => makes_conclude v.kind) hp₁ hrest).2

/-- The boundary after changes of one output, which is made if it is missing. -/
structure Outlets (name : String) (t t' : Tree) : Prop where
  boundary : ∃ g added, t'.boundary = t.boundary.map g ++ added ∧
    (∀ s, (g s).id = s.id ∧ (g s).side = s.side ∧ (g s).name = s.name) ∧
    (∀ s ∈ t.boundary, ¬(s.side = .output ∧ s.name = name) → g s = s) ∧
    (∀ s ∈ added, s.side = .output) ∧
    added.map (·.name) = [name].filter (· ∉ (t.socketsOn .output).map (·.name))

namespace Outlets

variable {name : String} {t t' : Tree} (h : Outlets name t t')
include h

theorem inputs : t'.socketsOn .input = t.socketsOn .input := by
  obtain ⟨g, added, hboundary, hkeeps, hothers, hadded, -⟩ := h.boundary
  have hnone : added.filter (·.side == .input) = [] :=
    List.filter_eq_nil_iff.mpr fun s hs => by simp [hadded s hs]
  rw [Tree.socketsOn, hboundary, List.filter_append, hnone, List.append_nil,
    Tree.filter_side_map fun s => (hkeeps s).2.1]
  refine (List.map_congr_left fun s hs => ?_).trans (List.map_id _)
  obtain ⟨hs, hinput⟩ := List.mem_filter.mp hs
  refine hothers s hs fun hout => ?_
  rw [hout.1] at hinput
  cases hinput

theorem outputs : ∃ kept added, t'.socketsOn .output = kept ++ added ∧
    List.Forall₂ (fun s s' => s'.id = s.id ∧ s'.name = s.name ∧ (s.name ≠ name → s' = s))
      (t.socketsOn .output) kept ∧
    added.map (·.name) = [name].filter (· ∉ (t.socketsOn .output).map (·.name)) := by
  obtain ⟨g, added, hboundary, hkeeps, hothers, hadded, hnames⟩ := h.boundary
  refine ⟨(t.socketsOn .output).map g, added, ?_, ?_, hnames⟩
  · rw [Tree.socketsOn, hboundary, List.filter_append,
      Tree.filter_side_map fun s => (hkeeps s).2.1,
      List.filter_eq_self.mpr fun s hs => beq_iff_eq.mpr (hadded s hs), Tree.socketsOn]
  · rw [List.forall₂_map_right_iff, List.forall₂_same]
    intro s hs
    refine ⟨(hkeeps s).1, (hkeeps s).2.2, fun hname => ?_⟩
    exact hothers s (List.mem_filter.mp hs).1 fun hout => hname hout.2

end Outlets

/-- Edits at the socket that was asked for are changes of that output. -/
theorem Restocks.outlets {type : SocketType} {added : List Socket} {x : SocketId} {t t₁ t' : Tree}
    (hi : t.Identified) (ha : Tree.Asked .output name type added x t t₁)
    (h : Restocks (· = x) t₁ t') : Outlets name t t' := by
  obtain ⟨-, f, hf, hsame, hboundary⟩ := h
  have hkeeps : ∀ s, (f s).id = s.id ∧ (f s).side = s.side ∧ (f s).name = s.name := by
    intro s
    obtain ⟨value, hvalue⟩ := hf s
    rw [hvalue]
    exact ⟨rfl, rfl, rfl⟩
  refine ⟨f ∘ Tree.fitNamed .output name type, added.map f, ?_, fun s => ?_, fun s hs hother => ?_,
    fun s hs => ?_, ?_⟩
  · rw [hboundary, ha.boundary, List.map_append, List.map_map]
  · obtain ⟨hid, hside, hname⟩ := hkeeps (Tree.fitNamed .output name type s)
    obtain ⟨hid', hside', hname'⟩ := Tree.fitNamed_keeps s
    exact ⟨hid.trans hid', hside.trans hside', hname.trans hname'⟩
  · have hfit : Tree.fitNamed .output name type s = s := if_neg hother
    exact (congrArg f hfit).trans (hsame s (ha.ne_of_other hi hs hother))
  · obtain ⟨r, hr, rfl⟩ := List.mem_map.mp hs
    rw [(hkeeps r).2.1]
    exact ha.side_of_added hr
  · rw [← ha.map_name_added, List.map_map]
    exact List.map_congr_left fun s _ => (hkeeps s).2.2

/-- A link that is not for the output of the pass stays to its end. -/
theorem finish_shielded {v : Operand} {l : Link} (hp : p.Rooted) (hi : p.tree.Identified)
    (h : finish options v p = (.ok r, p')) (hN : N .output options.outputName)
    (hl : Shielded N l p.tree) : Shielded N l p'.tree := by
  obtain ⟨type, added, x, t, hasked, hask, hsteps⟩ := finish_stages hp hi h
  have hne : x ≠ l.target.socket := by
    have htouch : l.touchesSocket l.target.socket = true := by simp [Link.touchesSocket]
    rintro rfl
    rcases hasked.source with ⟨-, s, hs, hside, hname, hid⟩ | ⟨-, hnew, -⟩
    · have hout := hl.unasked s hs (hside ▸ hname ▸ hN)
      rw [hid, htouch] at hout
      cases hout
    · have hlt := hl.below _ htouch
      rw [hnew] at hlt
      exact Nat.lt_irrefl _ hlt
  have hl' := hl.steps (S := fun _ => False) id (hask _ N hN)
  exact hl'.steps (S := (· = x)) (Ne.symm hne) (hsteps _ N rfl)

/-- The stages of a pass before its end: inputs are opened, and building the
term reaches no boundary socket. -/
theorem synthesis_stages {unknowns : List String} {term : Term} (hp : p.Rooted)
    (hi : p.tree.Identified) (h : synthesis unknowns term options p = (.ok r, p')) :
    ∃ fresh t v p₁, Aligned unknowns options fresh p.tree t ∧
      (∀ S (N : Side → String → Prop), (∀ name, N .input name) →
        ReflTransGen (Amends S N) p.tree t) ∧
      (∀ S N, ReflTransGen (Amends S N) t p₁.tree) ∧
      p₁.Rooted ∧ finish options v p₁ = (.ok r, p') := by
  rw [synthesis_eq] at h
  obtain ⟨inputs, p₁, hopen, hrest⟩ := bind_eq_ok.mp h
  obtain ⟨value, p₂, hevaluate, hfinish⟩ := bind_eq_ok.mp hrest
  obtain ⟨fresh, haligned⟩ := openInputs_aligned hi hopen
  have opens : ∀ S (N : Side → String → Prop), (∀ name, N .input name) →
      p₁.Rooted ∧ ReflTransGen (Amends S N) p.tree p₁.tree :=
    fun S N hN => Makes.of_ok (makes_openInputs hN _ _) hp hopen
  obtain ⟨hp₁, -⟩ := opens (fun _ => False) (fun _ _ => True) fun _ => trivial
  have builds : ∀ S N, p₂.Rooted ∧ ReflTransGen (Amends S N) p₁.tree p₂.tree :=
    fun S N => Makes.of_ok (compositional_makes.evaluate
      (fun _ => Makes.throw (.inr trivial)) _ _ _) hp₁ hevaluate
  exact ⟨fresh, p₁.tree, value.toOperand, p₂, haligned, fun S N hN => (opens S N hN).2,
    fun S N => (builds S N).2, (builds (fun _ => False) fun _ _ => False).1, hfinish⟩

end Pass

namespace Tree

variable {t t' : Tree}

/-- A pass that succeeds makes the inputs those of the formula, and leaves all
outputs but the one it is for. -/
theorem realize_synced {unknowns : List String} {term : Term} {options : Options}
    {report : Report} (hv : t.Valid) (hs : t.Sane)
    (hg : ∀ n ∈ t.nodes, n.id.isGroup = true → n.type.isBuilt = false)
    (h : realize unknowns term options t = (.ok report, t')) :
    Synced unknowns options t t' := by
  rw [realize_run] at h
  split at h
  · cases h
  obtain ⟨hrun, rfl⟩ := Prod.mk.inj h
  have hi : (Pass.start t).tree.Identified :=
    ⟨(hv.identified hs).ids, (hv.identified hs).names, (hv.identified hs).below⟩
  obtain ⟨fresh, t₁, v, p, haligned, hopen, hbuild, hp, hfinish⟩ :=
    Pass.synthesis_stages (hv.rooted_start hs hg) hi (eq_of_fst hrun)
  have hstock := Pass.restocks_of_steps (hbuild (fun _ => False) fun _ _ => False) fun _ _ => id
  have hboundary := hstock.boundary_eq
  have hip : p.tree.Identified := haligned.identified.sublist (by rw [hboundary]) hstock.supply
  obtain ⟨type, added, x, t₂, hasked, -, hend⟩ := Pass.finish_stages hp hip hfinish
  have houtlets := (Pass.restocks_of_steps (hend (· = x) (fun _ _ => False) rfl)
    fun _ _ => id).outlets hip hasked
  have hsockets : ∀ side, p.tree.socketsOn side = t₁.socketsOn side := by
    intro side
    rw [socketsOn, hboundary, socketsOn]
  have hinputs := houtlets.inputs.trans (hsockets .input)
  constructor
  · intro name
    rw [inputNames, hinputs]
    exact haligned.mem_inputNames
  · intro s hs
    rw [hinputs] at hs
    exact haligned.type_of_mem hs
  · exact ⟨fresh, hinputs.trans haligned.inputs, haligned.listed,
      fun s hs => (haligned.made s hs).2⟩
  · have houtputs := houtlets.outputs
    rwa [(hsockets .output).trans haligned.outputs] at houtputs
  · intro s hmem hname l hl htarget hsource hstays
    -- every stage is about other sockets than the two that the link joins
    have hstart := (hv.shielded hs hmem hl htarget hsource).amend (S := fun _ => False) id
      (.activate (some .groupInput))
    have hopened := hstart.steps (S := fun _ => False) id (hopen _ _ fun _ h => by cases h.1)
    have hbuilt := hopened.steps (S := fun _ => False) id (hbuild _ _)
    have hended := Pass.finish_shielded hp hip hfinish (fun h => hname h.2.symm) hbuilt
    refine hended.link.resolve_right fun hgone => ?_
    rw [hgone] at hstays
    cases hstays

/-- A product with an input that its host has made an integer, and a second
output that a node of the host feeds. -/
def rewired : Tree :=
  [.compile "a*b" {}, .retypeSocket ⟨3⟩ .int, .setSocketDefault ⟨3⟩ (.int 7), .addNode .math {},
    .addSocket "Side" .output .float, .connect ⟨⟨13⟩, ⟨17⟩⟩ ⟨.groupOutput, ⟨18⟩⟩].foldl
      HostEdit.apply (empty .geometry)

theorem hosted_rewired : rewired.Hosted := by
  simp only [rewired, List.foldl_cons, List.foldl_nil]
  exact ((((((hosted_empty .geometry).apply _).apply _).apply _).apply _).apply _).apply _

/-- A sum takes one of the inputs over, and the second output keeps its link. -/
theorem realize_synced_rewired :
    let term : Term := .call .add [.name "b", .name "c"]
    let t' := (realize ["b", "c"] term {} rewired).2
    rewired.Valid ∧ rewired.Sane ∧
      (∀ n ∈ rewired.nodes, n.id.isGroup = true → n.type.isBuilt = false) ∧
      (∃ report, realize ["b", "c"] term {} rewired = (.ok report, t')) ∧
      rewired.inputNames = ["a", "b"] ∧ Synced ["b", "c"] {} rewired t' ∧
      ⟨⟨19⟩, ⟨⟨13⟩, ⟨17⟩⟩, ⟨.groupOutput, ⟨18⟩⟩⟩ ∈ t'.links := by
  intro term t'
  have hvalid := hosted_rewired.valid
  have hsane := hosted_rewired.sane
  have hgroups : ∀ n ∈ rewired.nodes, n.id.isGroup = true → n.type.isBuilt = false := by
    decide +kernel
  obtain ⟨report, hok⟩ : ∃ report, (realize ["b", "c"] term {} rewired).1 = .ok report := by
    have hdone : ((realize ["b", "c"] term {} rewired).1.map fun _ => ()) = .ok () := by
      decide +kernel
    rcases hr : (realize ["b", "c"] term {} rewired).1 with fault | report
    · rw [hr] at hdone
      cases hdone
    · exact ⟨report, rfl⟩
  have hsynced : Synced ["b", "c"] {} rewired t' :=
    realize_synced hvalid hsane hgroups (eq_of_fst hok)
  refine ⟨hvalid, hsane, hgroups, ⟨report, eq_of_fst hok⟩, by decide +kernel, hsynced, ?_⟩
  exact hsynced.links ⟨⟨18⟩, "Side", .output, .float, none, false⟩ (by decide +kernel) (by decide) _
    (by decide +kernel) rfl (by decide) (by decide +kernel)

end Tree

end FormulaGraph
