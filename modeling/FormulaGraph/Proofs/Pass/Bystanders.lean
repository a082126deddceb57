import FormulaGraph.Proofs.Pass.Reach
import FormulaGraph.Proofs.Pass.Working

/-!
What the moves of a pass leave alone. A node that is finished or out of reach
stays as it is, and a boundary socket that is asked for again as what it is keeps
its type. An input with both ends like that keeps what feeds it.
-/

namespace FormulaGraph

open Run Relation

namespace Tree

variable {t t' : Tree} {n : Node}

theorem mirrored_of_not_group (h : n.id.isGroup = false) : t.mirrored n = n := by
  obtain ⟨hi, ho⟩ := ne_of_not_group h
  rw [mirrored, if_neg hi, if_neg ho]

theorem Apt.reboundary {X : SocketId → Prop} (h : t.Apt) (hr : Reboundary X t t') : t'.Apt := by
  intro n' hn'
  have hnode := node?_of_mem hr.sane.nodes hn'
  rw [hr.node?] at hnode
  obtain ⟨n, hn, rfl⟩ := Option.map_eq_some_iff.mp hnode
  have hapt := h n (mem_of_node? hn)
  unfold mirrored
  split
  · exact hapt
  · split <;> exact hapt

theorem Clean.reboundary {X : SocketId → Prop} (h : t.Clean) (hr : Reboundary X t t') :
    t'.Clean := by
  refine h.of_inputs (fun n' hn' htag => ?_) hr.links.subset
  have hnode := node?_of_mem hr.sane.nodes hn'
  have hg := hr.grouped.not_group hnode htag
  rw [hr.node?] at hnode
  obtain ⟨n, hn, rfl⟩ := Option.map_eq_some_iff.mp hnode
  rw [mirrored_of_not_group ?_]
  · exact ⟨n, mem_of_node? hn, rfl, rfl, rfl⟩
  · rw [id_of_node? hn]
    exact hg

theorem Clean.reconnect (h : t.Clean) (ht : t.Hosted) {a b : SocketRef}
    (hb : b.node = .groupOutput) :
    (reconnect a b t).2.Clean := by
  rcases reconnect_outcome a b t with ⟨fault, t', heq, ht', hl, -⟩ | ⟨hfault, heq⟩ <;> rw [heq]
  · exact h.of_nodes (by rw [ht']) hl
  · intro n hn i s spec hi hspec hspares
    obtain ⟨hfeed, hdefault⟩ := h n hn i s spec hi hspec hspares
    refine ⟨?_, hdefault⟩
    rw [feedOf?_reconnected, if_neg, hfeed]
    intro hs
    have hnode := node?_of_mem ht.sane.nodes hn
    obtain ⟨o, ho, hx⟩ := ((ht.sane.disconnect b.socket).ends_of_linkFault? hfault).2
    have howner := ht.sane.owner _ _ n o s.id hnode ho
      (List.mem_append_left _ (List.mem_map_of_mem (List.mem_of_getElem? hi)))
      (List.mem_append_left _ (hs ▸ hx))
    have hg := ht.grouped.not_group hnode hspares.call.isTag
    rw [howner, hb] at hg
    cases hg

end Tree

namespace Pass

variable {roster : List Handle} {scope : Scope} {p q : Pass} {y : SocketId} {s : Socket}
  {id : NodeId} {n : Node}

/-- A name whose node is not worked on: it has given handles, or it is out of
reach. -/
def Still (scope : Scope) (p : Pass) (name : String) : Prop :=
  Tag.isTag name = true → scope.tags name → name ∈ p.keys

/-- A socket that is there and keeps its type. -/
structure Lasts (scope : Scope) (p : Pass) (y : SocketId) : Prop where
  below : y.index < p.tree.supply
  type : ∀ s, p.tree.boundarySocket? y = some s → ∀ type, scope.asked s.side s.name type →
    p.tree.editor.adjust? type = some s.type

/-- The tags in reach tell the types of their nodes, so no node is replaced. -/
structure Definite (scope : Scope) (p : Pass) : Prop where
  apt : p.tree.Apt
  tags : ∀ tag, scope.tags tag → Tag.Definite tag

/-- An input that keeps what feeds it. -/
structure Rests (scope : Scope) (p : Pass) (y : SocketId) : Prop where
  input : ∃ id n, p.tree.node? id = some n ∧ y ∈ n.inputIds ∧ Still scope p n.name
  free : ∀ r, scope.assigned r → r.socket ≠ y
  lasts : Lasts scope p y
  source : ∀ r, p.tree.sourceOf? y = some r → Lasts scope p r.socket
  kept : Definite scope p ∨ ∀ r, p.tree.sourceOf? y = some r →
    ∃ m, p.tree.node? r.node = some m ∧ Still scope p m.name

theorem Moves.steps (hm : Moves roster scope p q) : ReflTransGen Tree.Amends p.tree q.tree := by
  cases hm with
  | note | give | again => exact .refl
  | work _ _ _ h => exact h.steps
  | ask _ => exact .single (.ask _ _ trivial _)
  | store _ _ => exact .single (.store _ trivial _)
  | release _ _ => exact .single (.unlink _ (.inl trivial))
  | feed _ _ => exact .single (.relink _ _ (.inl trivial))

theorem Moves.supply_le (hm : Moves roster scope p q) : p.tree.supply ≤ q.tree.supply :=
  (Amends.descends_steps hm.steps).2

theorem Viable.reboundary_store (hp : p.Viable) (hs : p.tree.boundarySocket? y = some s)
    (value : Value) :
    p.tree.Reboundary (· = y) (Tree.setSocketDefault y value p.tree).2 := by
  rw [Tree.setSocketDefault_run hs]
  split
  · exact .refl hp.hosted.sane hp.hosted.grouped
  · exact Tree.reboundary_redefault hp.hosted.sane hp.hosted.grouped _

theorem Still.gains {name : String} (h : Still scope p name) (hg : Gains p q) :
    Still scope q name := by
  intro ht hw
  exact (hg.results.map Prod.fst).subset (h ht hw)

theorem Still.ne_of_work {tag name : String} (h : Still scope p name) (ht : Tag.isTag tag = true)
    (hw : scope.tags tag) (hnew : tag ∉ p.keys) : name ≠ tag := by
  rintro rfl
  exact hnew (h ht hw)

/-- A node that is not worked on stays, and with it its inputs. -/
theorem Still.node (h : Still scope p n.name) (hp : p.Viable) (hm : Moves roster scope p q)
    (hn : p.tree.node? id = some n) :
    ∃ n', q.tree.node? id = some n' ∧ n'.name = n.name ∧ n.inputIds ⊆ n'.inputIds ∧
      (id.isGroup = false → n'.orphan = n.orphan) := by
  have same : q.tree.node? id = p.tree.node? id → ∃ n', q.tree.node? id = some n' ∧
      n'.name = n.name ∧ n.inputIds ⊆ n'.inputIds ∧ (id.isGroup = false → n'.orphan = n.orphan) :=
    fun heq => ⟨n, heq.trans hn, rfl, fun _ hx => hx, fun _ => rfl⟩
  have mirror : ∀ {X : SocketId → Prop}, p.tree.Reboundary X q.tree → ∃ n',
      q.tree.node? id = some n' ∧ n'.name = n.name ∧ n.inputIds ⊆ n'.inputIds ∧
      (id.isGroup = false → n'.orphan = n.orphan) := by
    intro X hr
    have hnode : q.tree.node? id = some (q.tree.mirrored n) := by rw [hr.node?, hn]; rfl
    refine ⟨_, hnode, congrArg Outline.name (Tree.outline_mirrored n), fun x hx => ?_,
      fun hid => ?_⟩
    · obtain ⟨n', hn', hx'⟩ : q.tree.HasInput ⟨id, x⟩ :=
        hr.hasInput hp.hosted.grouped (Gains.move hm).retains ⟨n, hn, hx⟩
      cases hnode.symm.trans hn'
      exact hx'
    · rw [Tree.mirrored_of_not_group (by rw [Tree.id_of_node? hn]; exact hid)]
  cases hm with
  | note | give | again => exact same rfl
  | work tagged new within hworks =>
    obtain ⟨n', hn', ho⟩ := hworks.keeps.node? ⟨n, hn, h.ne_of_work tagged within new⟩ hn
    refine ⟨n', hn', show n'.orphan.name = n.orphan.name by rw [ho], ?_, fun _ => ho⟩
    rw [(Node.alike_of_orphan ho).inputs]
    exact fun _ hx => hx
  | ask _ => exact mirror (Tree.reboundary_socketFor hp.hosted.sane hp.hosted.grouped _ _ _)
  | store found _ => exact mirror (hp.reboundary_store found _)
  | release _ _ => exact same rfl
  | @feed source target _ _ =>
    refine same ?_
    unfold Tree.node?
    rw [Tree.nodes_reconnect]

namespace Lasts

variable (h : Lasts scope p y)
include h

variable (hp : p.Viable)
include hp

/-- The moves of a pass give a socket that lasts another default at most, and an
output only if it is assigned. -/
theorem exists_socket (hm : Moves roster scope p q) :
    ∃ f : Socket → Socket, q.tree.boundarySocket? y = (p.tree.boundarySocket? y).map f ∧
      (∀ s, (f s).side = s.side ∧ (f s).name = s.name ∧ (f s).type = s.type) ∧
      ∀ s, p.tree.boundarySocket? y = some s → s.side = .output →
        ¬scope.assigned ⟨.groupOutput, y⟩ → f s = s := by
  have same : q.tree.boundarySocket? y = p.tree.boundarySocket? y →
      ∃ f : Socket → Socket, q.tree.boundarySocket? y = (p.tree.boundarySocket? y).map f ∧
        (∀ s, (f s).side = s.side ∧ (f s).name = s.name ∧ (f s).type = s.type) ∧
        ∀ s, p.tree.boundarySocket? y = some s → s.side = .output →
          ¬scope.assigned ⟨.groupOutput, y⟩ → f s = s :=
    fun heq => ⟨id, by rw [heq, Option.map_id, id], fun _ => ⟨rfl, rfl, rfl⟩, fun _ _ _ _ => rfl⟩
  cases hm with
  | note | give | again => exact same rfl
  | work _ _ _ hworks => exact same (Tree.boundarySocket?_of_boundary hworks.boundary y)
  | ask within =>
    refine same (Tree.boundarySocket?_socketFor hp.hosted.grouped ?_)
    rintro (hold | ⟨s, hs, rfl, rfl, hne⟩)
    · exact absurd h.below (Nat.not_lt.mpr hold)
    · exact hne (h.type s hs _ within)
  | @store x s value found within =>
    obtain ⟨b, t, heq, -, -, hself, hothers⟩ := Tree.setSocketDefault_spec found value
    dsimp only at same ⊢
    rw [heq] at same ⊢
    by_cases hx : y = x
    · subst hx
      refine ⟨Tree.redefault (value.convert s.type), by rw [hself, found]; rfl,
        fun _ => ⟨rfl, rfl, rfl⟩, fun r hr hside hfree => ?_⟩
      cases found.symm.trans hr
      rcases within with ⟨hin, -⟩ | hassigned
      · rw [hside] at hin
        cases hin
      · exact absurd hassigned hfree
    · exact same (hothers y hx)
  | release _ _ => exact same rfl
  | feed _ _ =>
    refine same (Tree.boundarySocket?_of_boundary ?_ y)
    rw [Tree.reconnect_run]
    split <;> rfl

theorem move (hm : Moves roster scope p q) : Lasts scope q y := by
  obtain ⟨f, hf, hkeeps, -⟩ := h.exists_socket hp hm
  refine ⟨Nat.lt_of_lt_of_le h.below hm.supply_le, fun s' hs' type ha => ?_⟩
  rw [hf] at hs'
  obtain ⟨s, hs, rfl⟩ := Option.map_eq_some_iff.mp hs'
  obtain ⟨hside, hname, htype⟩ := hkeeps s
  rw [hside, hname] at ha
  rw [(Gains.move hm).editor, htype]
  exact h.type s hs type ha

theorem output (hm : Moves roster scope p q)
    (hs : p.tree.boundarySocket? y = some s) (hside : s.side = .output)
    (hfree : ¬scope.assigned ⟨.groupOutput, y⟩) : q.tree.boundarySocket? y = some s := by
  obtain ⟨f, hf, -, hfixed⟩ := h.exists_socket hp hm
  rw [hf, hs, Option.map_some, hfixed s hs hside hfree]

variable (hm : Runs roster scope p q)
include hm

theorem runs : Lasts scope q y := by
  induction hm with
  | refl => exact h
  | tail hmoves hmove ih => exact ih.move (hp.runs hmoves) hmove

theorem missing_runs (hs : p.tree.boundarySocket? y = none) : q.tree.boundarySocket? y = none := by
  induction hm with
  | refl => exact hs
  | tail hmoves hmove ih =>
    obtain ⟨f, hf, -⟩ := (h.runs hp hmoves).exists_socket (hp.runs hmoves) hmove
    rw [hf, ih]
    rfl

theorem output_runs
    (hs : p.tree.boundarySocket? y = some s) (hside : s.side = .output)
    (hfree : ¬scope.assigned ⟨.groupOutput, y⟩) : q.tree.boundarySocket? y = some s := by
  induction hm with
  | refl => exact hs
  | tail hmoves hmove ih => exact (h.runs hp hmoves).output (hp.runs hmoves) hmove ih hside hfree

end Lasts

theorem Moves.apt (hm : Moves roster scope p q) (hp : p.Viable) (h : p.tree.Apt) : q.tree.Apt := by
  cases hm with
  | note | give | again => exact h
  | work _ _ _ hworks => exact hworks.apt h
  | ask _ => exact h.reboundary (Tree.reboundary_socketFor hp.hosted.sane hp.hosted.grouped _ _ _)
  | store found _ => exact h.reboundary (hp.reboundary_store found _)
  | release _ _ => exact h.of_nodes rfl
  | feed _ _ => exact h.of_nodes (Tree.nodes_reconnect _ _ _)

/-- Passes keep inputs clean if they assign nothing but outputs. -/
theorem Moves.clean (hm : Moves roster scope p q) (hp : p.Viable)
    (hs : ∀ r, scope.assigned r → r.node = .groupOutput) (h : p.tree.Clean) : q.tree.Clean := by
  cases hm with
  | note | give | again => exact h
  | work _ _ _ hworks => exact hworks.clean h
  | ask _ => exact h.reboundary (Tree.reboundary_socketFor hp.hosted.sane hp.hosted.grouped _ _ _)
  | store found _ => exact h.reboundary (hp.reboundary_store found _)
  | release _ _ => exact h.of_nodes rfl (List.filter_subset_self _)
  | feed within _ => exact h.reconnect hp.hosted (hs _ within)

theorem Definite.move (h : Definite scope p) (hp : p.Viable) (hm : Moves roster scope p q) :
    Definite scope q := ⟨hm.apt hp h.apt, h.tags⟩

namespace Rests

variable (h : Rests scope p y)
include h

/-- Work on one node leaves the inputs of the others. -/
theorem sourceOf?_work {tag : String} (hp : p.Viable)
    (ht : Tag.isTag tag = true) (hnew : tag ∉ p.keys) (hw : scope.tags tag)
    (hworks : Works roster tag p q) : q.tree.sourceOf? y = p.tree.sourceOf? y := by
  obtain ⟨id, n, hn, hy, hstill⟩ := h.input
  have hne := hstill.ne_of_work ht hw hnew
  rcases h.kept with hdefinite | hsources
  · have helsewhere : p.tree.Elsewhere tag y := by
      refine ⟨h.lasts.below, fun m hm hname hym => hne ?_⟩
      have hnode := Tree.node?_of_mem hp.hosted.sane.nodes hm
      have hid := hp.hosted.sane.owner _ _ n m y hn hnode (List.mem_append_left _ hy)
        (List.mem_append_left _ hym)
      rw [hid, hnode] at hn
      cases hn
      exact hname
    unfold Tree.sourceOf?
    rw [(hworks.feeds hdefinite.apt (hdefinite.tags tag hw) y helsewhere).1]
  · refine hworks.keeps.feeds id n y ⟨n, hn, hne⟩ hn hy fun r hr => ?_
    obtain ⟨m, hm, hsource⟩ := hsources r hr
    exact ⟨m, hm, hsource.ne_of_work ht hw hnew⟩

theorem sourceOf? (hp : p.Viable) (hm : Moves roster scope p q) :
    q.tree.sourceOf? y = p.tree.sourceOf? y := by
  cases hm with
  | note | give | again => rfl
  | work tagged new within hworks => exact h.sourceOf?_work hp tagged new within hworks
  | @ask side name type within =>
    have spared : ∀ {x}, Lasts scope p x → ¬p.tree.Concerns side name type x := by
      rintro x hx (hold | ⟨s, hs, rfl, rfl, hne⟩)
      · exact absurd hx.below (Nat.not_lt.mpr hold)
      · exact hne (hx.type s hs type within)
    have hr := Tree.reboundary_socketFor hp.hosted.sane hp.hosted.grouped side name type
    exact congrArg (Option.map _) (hr.feedOf? (spared h.lasts) fun r hr => spared (h.source r hr))
  | @store x s value found _ =>
    obtain ⟨b, t, heq, hlinks, -⟩ := Tree.setSocketDefault_spec found value
    unfold Tree.sourceOf? Tree.feedOf?
    dsimp only
    rw [heq]
    dsimp only
    rw [hlinks]
  | release _ within =>
    unfold Tree.sourceOf?
    dsimp only
    rw [Tree.feedOf?_disconnect, if_neg (h.free _ within).symm]
  | @feed source target within _ =>
    have hne := (h.free target within).symm
    unfold Tree.sourceOf?
    dsimp only
    rcases Tree.reconnect_outcome source target p.tree with ⟨fault, t, heq, -, -, hfeed⟩ | ⟨-, heq⟩
    · rw [heq, hfeed]
    · rw [heq, Tree.feedOf?_reconnected, if_neg hne]

theorem move (hp : p.Viable) (hm : Moves roster scope p q) : Rests scope q y := by
  have hsource := h.sourceOf? hp hm
  refine ⟨?_, h.free, h.lasts.move hp hm, fun r hr => ?_, ?_⟩
  · obtain ⟨id, n, hn, hy, hstill⟩ := h.input
    obtain ⟨n', hn', hname, hinputs, -⟩ := hstill.node hp hm hn
    exact ⟨id, n', hn', hinputs hy, hname ▸ hstill.gains (.move hm)⟩
  · exact (h.source r (hsource ▸ hr)).move hp hm
  · refine h.kept.imp (fun hd => hd.move hp hm) fun hsources r hr => ?_
    obtain ⟨m, hnode, hstill⟩ := hsources r (hsource ▸ hr)
    obtain ⟨m', hnode', hname, -⟩ := hstill.node hp hm hnode
    exact ⟨m', hnode', hname ▸ hstill.gains (.move hm)⟩

theorem runs (hp : p.Viable) (hm : Runs roster scope p q) :
    q.tree.sourceOf? y = p.tree.sourceOf? y ∧ Rests scope q y := by
  induction hm with
  | refl => exact ⟨rfl, h⟩
  | tail hmoves hmove ih =>
    obtain ⟨hsource, hrests⟩ := ih
    have hq := hp.runs hmoves
    exact ⟨(hrests.sourceOf? hq hmove).trans hsource, hrests.move hq hmove⟩

end Rests

/-- A generated node that is not worked on stays as it is. -/
theorem Still.node_runs (h : Still scope p n.name) (hp : p.Viable) (hm : Runs roster scope p q)
    (hn : p.tree.node? id = some n) (hg : id.isGroup = false) :
    ∃ n', q.tree.node? id = some n' ∧ n'.orphan = n.orphan := by
  induction hm with
  | refl => exact ⟨n, hn, rfl⟩
  | tail hmoves hmove ih =>
    obtain ⟨m, hm, ho⟩ := ih
    have hname : m.name = n.name := show m.orphan.name = n.orphan.name by rw [ho]
    have hstill : Still scope _ m.name := hname ▸ h.gains (.runs hmoves)
    obtain ⟨m', hm', -, -, ho'⟩ := hstill.node (hp.runs hmoves) hmove hm
    exact ⟨m', hm', (ho' hg).trans ho⟩

end Pass

end FormulaGraph
