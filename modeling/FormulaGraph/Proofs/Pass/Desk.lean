import FormulaGraph.Proofs.Pass.Operations

/-!
Operations one after the other, where each is given only handles that earlier
ones of the same pass have given. Such a pass knows where its handles are: on
nodes that have given them, or on boundary sockets.
-/

namespace FormulaGraph.Pass

open Run Relation

def Action.gives (p : Pass) (a : Action) : List Handle :=
  match (a.run p).1 with
  | .ok handles => handles
  | .error _ => []

structure Desk where
  pass : Pass
  given : List Handle

namespace Desk

def start (t : Tree) : Desk := ⟨Pass.start t, []⟩

def act (d : Desk) (a : Action) : Desk := ⟨a.perform d.pass, a.gives d.pass ++ d.given⟩

def acts (d : Desk) (actions : List Action) : Desk := actions.foldl act d

/-- Whether operations are only given handles of the pass. -/
def Owns : Desk → List Action → Prop
  | _, [] => True
  | d, a :: actions => (∀ h ∈ a.handles, h ∈ d.given) ∧ Owns (d.act a) actions

instance decidableOwns : (d : Desk) → (actions : List Action) → Decidable (d.Owns actions)
  | _, [] => .isTrue trivial
  | d, a :: actions =>
    have := decidableOwns (d.act a) actions
    inferInstanceAs (Decidable (_ ∧ _))

variable {d : Desk} {a : Action} {actions others : List Action}

theorem acts_append (d : Desk) (actions others : List Action) :
    d.acts (actions ++ others) = (d.acts actions).acts others := List.foldl_append

theorem owns_append :
    d.Owns (actions ++ others) ↔ d.Owns actions ∧ (d.acts actions).Owns others := by
  induction actions generalizing d with
  | nil => simp [Owns, acts]
  | cons a actions ih =>
    rw [List.cons_append, Owns, Owns, ih, and_assoc]
    rfl

end Desk

section Sockets

variable {scope : Scope} {p : Pass} {y : SocketId} {id : NodeId} {n : Node}

/-- A socket of a generated node is none of the boundary. -/
theorem Viable.not_boundary (hp : p.Viable) (hn : p.tree.node? id = some n)
    (hg : id.isGroup = false) (hy : y ∈ n.socketIds) : p.tree.boundarySocket? y = none := by
  cases hs : p.tree.boundarySocket? y with
  | none => rfl
  | some s =>
    obtain ⟨hmem, rfl⟩ := Tree.mem_of_boundarySocket? hs
    have absurd_of : ∀ {m : Node} {group : NodeId}, p.tree.node? group = some m →
        group.isGroup = true → s.id ∈ m.socketIds → False := by
      intro m group hm hgroup hx
      have howner := hp.hosted.sane.owner _ _ n m _ hn hm hy hx
      rw [howner, hgroup] at hg
      cases hg
    cases hside : s.side with
    | input =>
      obtain ⟨i, hi, hout, -⟩ := hp.hosted.grouped.input
      refine (absurd_of hi rfl (List.mem_append_right _ ?_)).elim
      rw [Node.outputIds, hout]
      exact Tree.mem_ids_shownInside.mpr ⟨s, hmem, hside, rfl⟩
    | output =>
      obtain ⟨o, ho, hx⟩ := Tree.hasInput_of_mem hp.hosted.grouped hmem hside
      exact (absurd_of ho rfl (List.mem_append_left _ hx)).elim

theorem Viable.lasts (hp : p.Viable) (hn : p.tree.node? id = some n) (hg : id.isGroup = false)
    (hy : y ∈ n.socketIds) : Lasts scope p y := by
  refine ⟨hp.hosted.sane.socketsBelow _ n _ hn hy, fun s hs => ?_⟩
  rw [hp.not_boundary hn hg hy] at hs
  cases hs

theorem Given.node {h : Handle} (hg : Given p h) (hp : p.Viable) :
    ∃ m, p.tree.node? h.node = some m ∧ m.name ∈ p.keys ∧ h.node.isGroup = false := by
  obtain ⟨e, he, hh⟩ := hg.mem
  obtain ⟨m, hm, hname⟩ := hp.settled e he h hh
  obtain ⟨e', he', heq⟩ := List.mem_map.mp hname
  exact ⟨m, hm, hname, hp.hosted.grouped.not_group hm (heq ▸ (hp.entries e' he').isTag)⟩

end Sockets

/-- Where a handle of the pass is: on a node that has given it, or on a boundary
socket. Outputs keep their types. -/
inductive Held (scope : Scope) (p : Pass) (h : Handle) : Prop where
  | result (given : Given p h)
  | bound {s : Socket} (found : p.tree.boundarySocket? h.socket.socket = some s)
      (node : h.node = groupNode s.side) (name : h.boundary = some s.name)
      (kind : h.kind = .output ↔ s.side = .output)
      (lasts : s.side = .output → Lasts scope p h.socket.socket)

/-- A scope that asks for every output with one type. -/
def Scope.Consistent (scope : Scope) : Prop := ∀ name type type',
  scope.asked .output name type → scope.asked .output name type' → type = type'

variable {roster : List Handle} {scope : Scope} {p q : Pass} {a : Action} {h : Handle}

theorem Held.runs (hh : Held scope p h) (hp : p.Viable) (hm : Runs roster scope p q) :
    Held scope q h := by
  have hg := Gains.runs hm
  cases hh with
  | result given => exact .result (given.mono hg)
  | bound found node name kind lasts =>
    obtain ⟨s', hs', hside, hname⟩ := hg.retains.socket _ _ found
    exact .bound hs' (hside ▸ node) (hname ▸ name) (hside ▸ kind)
      fun ho => (lasts (hside ▸ ho)).runs hp hm

theorem Action.Gives.held (hg : a.Gives p q h) (hq : q.Viable) (hw : a.Within scope p)
    (hc : scope.Consistent) : Held scope q h := by
  cases hg with
  | result given => exact .result given
  | input eq kind_eq value bounds type_eq found typed =>
    obtain ⟨s, hs, hside, hname⟩ := bounds.socket
    refine .bound hs (hside ▸ bounds.node) (hname ▸ bounds.name_eq) ?_ fun ho => ?_
    · rw [kind_eq, hside]
      exact iff_of_false value (by simp)
    · rw [hside] at ho
      cases ho
  | output eq kind_eq bounds type_eq found typed =>
    subst eq
    obtain ⟨s, hs, hside, hname⟩ := bounds.socket
    cases found.symm.trans hs
    refine .bound hs (hside ▸ bounds.node) (hname ▸ bounds.name_eq)
      (iff_of_true kind_eq hside) fun _ => ⟨?_, fun r hr type ha => ?_⟩
    · obtain ⟨hmem, hid⟩ := Tree.mem_of_boundarySocket? hs
      rw [← hid]
      exact hq.hosted.grouped.below hq.hosted.sane hmem
    · cases hs.symm.trans hr
      rw [hside, hname] at ha
      rw [hc _ _ _ ha (hw _ type_eq)]
      exact typed

namespace Desk

variable {d : Desk} {actions : List Action}

structure Sound (scope : Scope) (d : Desk) : Prop where
  viable : d.pass.Viable
  held : ∀ h ∈ d.given, Held scope d.pass h

theorem Sound.act (hd : d.Sound scope) (hc : scope.Consistent) (ho : ∀ h ∈ a.handles, h ∈ d.given)
    (hw : a.Within scope d.pass) :
    Runs d.given scope d.pass (d.act a).pass ∧ (d.act a).Sound scope := by
  obtain ⟨hruns, hgives, -⟩ := a.behaves (fun g hg => .inl (ho g hg)) hw hd.viable
  rw [← a.perform_eq] at hruns hgives
  have hq := hd.viable.runs hruns
  refine ⟨hruns, hq, fun h hh => ?_⟩
  rcases List.mem_append.mp hh with hnew | hold
  · unfold Action.gives at hnew
    split at hnew
    · next handles hok => exact (hgives handles hok h hnew).held hq hw hc
    · cases hnew
  · exact (hd.held h hold).runs hd.viable hruns

theorem given_subset_acts (d : Desk) (actions : List Action) :
    d.given ⊆ (d.acts actions).given := by
  induction actions generalizing d with
  | nil => exact fun _ hh => hh
  | cons a actions ih => exact fun _ hh => ih (d.act a) (List.mem_append_right _ hh)

/-- Operations that keep to a scope make moves within it. -/
theorem Sound.acts (hd : d.Sound scope) (hc : scope.Consistent) (ho : d.Owns actions)
    (hw : ∀ (d' : Desk) (roster : List Handle), ∀ a ∈ actions, d'.Sound scope →
      Runs roster scope d.pass d'.pass → (∀ h ∈ a.handles, h ∈ d'.given) →
      a.Within scope d'.pass) :
    Runs (d.acts actions).given scope d.pass (d.acts actions).pass ∧
      (d.acts actions).Sound scope := by
  induction actions generalizing d with
  | nil => exact ⟨.refl, hd⟩
  | cons a actions ih =>
    obtain ⟨hown, howns⟩ := ho
    obtain ⟨hruns, hsound⟩ := hd.act hc hown (hw d d.given a List.mem_cons_self hd .refl hown)
    obtain ⟨hrest, hend⟩ := ih hsound howns fun d' roster b hb hs hr =>
      hw d' (d.given ++ roster) b (List.mem_cons_of_mem _ hb) hs
        ((hruns.widen (List.subset_append_left _ _)).trans
          (hr.widen (List.subset_append_right _ _)))
    refine ⟨.trans (hruns.widen fun h hh => ?_) hrest, hend⟩
    exact given_subset_acts (d.act a) actions (List.mem_append_right _ hh)

end Desk

end FormulaGraph.Pass
