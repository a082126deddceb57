import FormulaGraph.Proofs.Pass.Catalog
import FormulaGraph.Proofs.Session.Reflection

/-!
Compiling into a tree in which nothing is generated yet. As many nodes are made
as in a new tree. All nodes but the group nodes stay exactly as they are, with
the links between them, however often the tree is compiled into.
-/

namespace FormulaGraph.Tree

open Run

variable {t t' : Tree} {n : Node} {text : String} {options : Options}

def Untagged (t : Tree) : Prop := ∀ n ∈ t.nodes, Tag.isTag n.name = false

theorem untagged_empty (editor : Editor) : (empty editor).Untagged := by
  show ∀ n ∈ (empty editor).nodes, Tag.isTag n.name = false
  cases editor <;> decide

theorem Untagged.isOwn (hu : t.Untagged) (hn : n ∈ t.nodes) (hg : n.id.isGroup = false) :
    n.isOwn = true := by
  simp [Node.isOwn, hg, hu n hn]

def Homed (t : Tree) : Prop :=
  ∀ n ∈ t.nodes, ∀ f, n.parent = some f → t.contains f = true ∧ f.isGroup = false

/-- An untagged tree is at rest in a tree that was compiled into: its nodes, group
nodes apart, are there unchanged, with just the links between them that there
were. None of them has come to be around generated nodes. -/
structure Rests (t t' : Tree) : Prop where
  tidy : t'.Tidy
  hosted : t'.Hosted
  regular : t'.Regular
  nodes : ∀ n ∈ t.nodes, n.id.isGroup = false → t'.node? n.id = some n
  links : ∀ l, t.contains l.source.node = true → l.source.node.isGroup = false →
    t.contains l.target.node = true → l.target.node.isGroup = false →
    (l ∈ t'.links ↔ l ∈ t.links)
  around : ∀ n ∈ t.nodes, n.id.isGroup = false → ¬t'.Encloses n.id

theorem Untagged.rests (hu : t.Untagged) (ht : t.Tidy) (hh : t.Hosted) (hr : t.Regular) :
    t.Rests t where
  tidy := ht
  hosted := hh
  regular := hr
  nodes := fun _ hn _ => node?_of_mem hr.sane.nodes hn
  links := fun _ _ _ _ _ => .rfl
  around := by
    rintro _ _ _ ⟨x, m, hm, htag, -⟩
    rw [hu m (mem_of_node? hm)] at htag
    cases htag

namespace Rests

variable (h : t.Rests t') (hu : t.Untagged)
include h hu

theorem isOwn (hn : n ∈ t.nodes) (hg : n.id.isGroup = false) : n ∈ t'.nodes.filter Node.isOwn :=
  List.mem_filter.mpr ⟨mem_of_node? (h.nodes n hn hg), hu.isOwn hn hg⟩

/-- A node that stays is the same, and in the same frame. -/
theorem eq_of_stays {t'' : Tree} {n' : Node} (hhomed : t.Homed) (hr : t'.Respects t'')
    (hn : n ∈ t.nodes) (hg : n.id.isGroup = false) (hs : Stays t' t'' n n') : n' = n := by
  have hparent : n'.parent = n.parent := by
    rcases hs.parent with hp | ⟨hreleased, hnone | ⟨hencloses, -⟩⟩
    · exact hp
    · rcases hreleased with hfree | ⟨f, hf, -, hgone⟩
      · rw [hnone, hfree]
      · -- no frame is gone, as frames stay like other nodes
        obtain ⟨hin, hgf⟩ := hhomed n hn f hf
        obtain ⟨m, hm⟩ := contains_iff.mp hin
        obtain ⟨m', hm', hs'⟩ :=
          forall₂_mem_left hr.own (h.isOwn hu (mem_of_node? hm) (id_of_node? hm ▸ hgf))
        have hid : m'.id = m.id := show m'.orphan.id = m.orphan.id by rw [hs'.orphan]
        have : t''.contains f = true := by
          rw [contains_iff_mem, ← id_of_node? hm, ← hid]
          exact List.mem_map_of_mem (List.mem_filter.mp hm').1
        rw [hgone] at this
        cases this
    · exact absurd hencloses (h.around n hn hg)
  calc n' = { n'.orphan with parent := n'.parent } := rfl
    _ = { n.orphan with parent := n.parent } := by rw [hs.orphan, hparent]
    _ = n := rfl

/-- A further call leaves the tree at rest. -/
theorem compile (hhomed : t.Homed) (text : String) (options : Options) :
    t.Rests (compile text options t').2 := by
  have hr := Respects.compile h.regular text options
  have htidy := tidy_compile h.tidy text options
  have hhosted := h.hosted.compile text options
  have hnodes : ∀ n ∈ t.nodes, n.id.isGroup = false →
      (Tree.compile text options t').2.node? n.id = some n := by
    intro n hn hg
    obtain ⟨n', hn', hs⟩ := forall₂_mem_left hr.own (h.isOwn hu hn hg)
    rw [h.eq_of_stays hu hhomed hr hn hg hs] at hn'
    exact node?_of_mem hr.ids (List.mem_filter.mp hn').1
  refine ⟨htidy, hhosted, hr.regular hhosted, hnodes, fun l hsource hgs htarget hgt => ?_, ?_⟩
  · -- the ends of a link are at the same nodes before and after the call
    have hown : ∀ {r : SocketRef} {m}, t.contains r.node = true → r.node.isGroup = false →
        t'.node? r.node = some m ∨ (Tree.compile text options t').2.node? r.node = some m →
        r.socket ∈ m.socketIds → t'.OwnEnd r := by
      intro r m hin hg hm hx
      obtain ⟨n, hn⟩ := contains_iff.mp hin
      have hid := id_of_node? hn
      have hn := mem_of_node? hn
      rw [← hid, h.nodes n hn (hid ▸ hg), hnodes n hn (hid ▸ hg), or_self] at hm
      cases hm
      obtain ⟨hn', hown⟩ := List.mem_filter.mp (h.isOwn hu hn (hid ▸ hg))
      exact ⟨m, hn', hown, hid, hx⟩
    rw [← h.links l hsource hgs htarget hgt]
    constructor
    · intro hl
      obtain ⟨⟨a, ha, hx⟩, ⟨b, hb, hy⟩⟩ := htidy.sane.ends l hl
      exact (hr.between l (hown hsource hgs (.inr ha) (List.mem_append_right _ hx))
        (hown htarget hgt (.inr hb) (List.mem_append_left _ hy))).mp hl
    · intro hl
      obtain ⟨⟨a, ha, hx⟩, ⟨b, hb, hy⟩⟩ := h.tidy.sane.ends l hl
      exact hr.links l hl (hown hsource hgs (.inl ha) (List.mem_append_right _ hx))
        (hown htarget hgt (.inl hb) (List.mem_append_left _ hy))
  · intro n hn hg hencloses
    obtain ⟨hn', hown⟩ := List.mem_filter.mp (h.isOwn hu hn hg)
    exact h.around n hn hg (hr.enclosed n.id hencloses n hn' rfl hown)

end Rests

def after (t : Tree) (calls : List (String × Options)) : Tree :=
  calls.foldl (fun t call => (compile call.1 call.2 t).2) t

theorem after_cons (call : String × Options) (calls : List (String × Options)) :
    t.after (call :: calls) = (compile call.1 call.2 t).2.after calls := by
  unfold after
  rw [List.foldl_cons]

theorem Rests.after (h : t.Rests t') (hu : t.Untagged) (hhomed : t.Homed)
    (calls : List (String × Options)) : t.Rests (t'.after calls) := by
  induction calls generalizing t' with
  | nil => exact h
  | cons call calls ih =>
    rw [after_cons]
    exact ih (h.compile hu hhomed call.1 call.2)

theorem Untagged.filed (hu : t.Untagged) {inputs : Pass.Inputs} {p : Pass}
    (ho : Pass.Opens t inputs p) : p.Filed ∧ (p.catalog, p.created) = ([], 0) := by
  have hindex : p.index = [] := by
    rw [ho.start]
    refine List.eq_nil_iff_forall_not_mem.mpr fun e he => ?_
    obtain ⟨n, hn, htag, -⟩ := Pass.mem_tagIndex.mp he
    rw [hu n hn] at htag
    cases htag
  refine ⟨⟨fun x n hn => ?_, by simp [hindex]⟩, ?_⟩
  · exact id_of_node? hn ▸ ho.orderly.tidy.sane.nodesBelow n (mem_of_node? hn)
  · rw [Pass.catalog, hindex, ho.start]
    rfl

/-- Two passes over such trees make as many nodes, if both of them succeed. -/
theorem created_of_staged {unknowns : List String} {term : Term} {report report' : Report}
    {p p' : Pass} (he : t'.editor = t.editor) (hu : t.Untagged) (hu' : t'.Untagged)
    (hs : Pass.Staged t unknowns term options (.ok report) p)
    (hs' : Pass.Staged t' unknowns term options (.ok report') p') :
    report'.created = report.created := by
  cases hs with
  | @done _ inputs w p₁ p₂ _ opens opened evaluates _ _ concludes =>
    cases hs' with
    | @done _ inputs' w' p₁' p₂' _ opens' opened' evaluates' _ _ concludes' =>
      have hstart : Pass.Alike (fun _ _ => True) (Pass.start t) (Pass.start t') :=
        ⟨he, rfl, rfl, .nil, trivial⟩
      obtain ⟨hi, ha⟩ := Pass.tandem_openInputs _ _ _ _ hstart _ _ _ _ opens opens'
      obtain ⟨hfiled, hnone⟩ := hu.filed opened
      obtain ⟨hfiled', hnone'⟩ := hu'.filed opened'
      have ha₁ : Pass.Alike Pass.Catalogued p₁ p₁' :=
        { ha with beside := ⟨hfiled, hfiled', hnone'.trans hnone.symm⟩ }
      obtain ⟨-, ha₂⟩ := Pass.companion_catalogued.lockstep.evaluate hi _ term _ _ ha₁ _ _ _ _
        evaluates evaluates'
      rw [concludes.created, concludes'.created]
      exact congrArg Prod.snd ha₂.beside.same

/-- A call that succeeds makes as many nodes as in a new tree, where it succeeds
too. -/
theorem created_of_compile {report : Report} (ht : t.Tidy) (hu : t.Untagged)
    (h : (compile text options t).1 = .ok report) :
    ∃ report', (compile text options (empty t.editor)).1 = .ok report' ∧
      report'.created = report.created := by
  have ht' := tidy_empty t.editor
  obtain ⟨report', h', -⟩ := compile_alike ht ht' rfl h
  refine ⟨report', h', ?_⟩
  rcases compile_staged ht text options with
    ⟨fault, hrun⟩ | ⟨plain, term, r, p, hread, -, hrun, hs⟩
  · rw [hrun] at h
    cases h
  · rcases compile_staged ht' text options with
      ⟨fault, hrun'⟩ | ⟨plain', term', r', p', hread', -, hrun', hs'⟩
    · rw [hrun'] at h'
      cases h'
    · cases hread.symm.trans hread'
      rw [hrun] at h
      rw [hrun'] at h'
      cases h
      cases h'
      have heditor : (empty t.editor).editor = t.editor := rfl
      exact created_of_staged heditor hu (untagged_empty t.editor) hs hs'

end FormulaGraph.Tree
