import FormulaGraph.Proofs.Graph.View
import Mathlib.Logic.Relation

/-!
Paths along links. Searching back from a node finds another exactly if a chain
of links leads from that one to the first. So a link that is refused when its
start reads from its end never closes a loop.
-/

namespace FormulaGraph

open Relation

namespace Tree

variable {t t' : Tree} {a b x y : NodeId}

def Feeds (t : Tree) (a b : NodeId) : Prop := ∃ l ∈ t.links, l.source.node = a ∧ l.target.node = b

def Acyclic (t : Tree) : Prop := ∀ x, ¬TransGen t.Feeds x x

theorem mem_feeders : x ∈ Link.feeders t.links y ↔ t.Feeds x y := by
  simp only [Link.feeders, Feeds, List.mem_map, List.mem_filter, beq_iff_eq]
  exact ⟨fun ⟨l, ⟨hl, hy⟩, hx⟩ => ⟨l, hl, hx, hy⟩, fun ⟨l, hl, hx, hy⟩ => ⟨l, ⟨hl, hy⟩, hx⟩⟩

variable {stack seen : List NodeId}

/-- What is found leads to the stack. -/
theorem reaches_of_leadsBack (h : Link.leadsBack t.links y stack seen = true) :
    ∃ x ∈ stack, ReflTransGen t.Feeds y x := by
  fun_induction Link.leadsBack t.links y stack seen with
  | case1 => cases h
  | case2 => exact ⟨y, List.mem_cons_self, .refl⟩
  | case3 seen current rest _ _ ih =>
    obtain ⟨x, hx, hpath⟩ := ih h
    exact ⟨x, List.mem_cons_of_mem _ hx, hpath⟩
  | case4 seen current rest _ _ ih =>
    obtain ⟨x, hx, hpath⟩ := ih h
    rcases List.mem_append.mp hx with hx | hx
    · exact ⟨current, List.mem_cons_self, hpath.tail (mem_feeders.mp (List.mem_reverse.mp hx))⟩
    · exact ⟨x, List.mem_cons_of_mem _ hx, hpath⟩

/-- What was seen is not what is searched for, and whatever feeds it was seen or
waits on the stack. -/
structure Searched (t : Tree) (y : NodeId) (stack seen : List NodeId) : Prop where
  missed : y ∉ seen
  fed : ∀ a b, t.Feeds a b → b ∈ seen → a ∈ stack ∨ a ∈ seen

/-- A search in vain ends with nodes that read from each other only. -/
theorem closed_of_leadsBack (hi : t.Searched y stack seen)
    (h : Link.leadsBack t.links y stack seen = false) : ∃ found : List NodeId,
      (∀ x, x ∈ stack ∨ x ∈ seen → x ∈ found) ∧ y ∉ found ∧
        ∀ a b, t.Feeds a b → b ∈ found → a ∈ found := by
  fun_induction Link.leadsBack t.links y stack seen with
  | case1 seen =>
    refine ⟨seen, fun x hx => hx.resolve_left List.not_mem_nil, hi.missed, fun a b hab hb => ?_⟩
    exact (hi.fed a b hab hb).resolve_left List.not_mem_nil
  | case2 => cases h
  | case3 seen current rest _ hold ih =>
    have waits : ∀ x, x ∈ current :: rest ∨ x ∈ seen → x ∈ rest ∨ x ∈ seen := by
      rintro x (hx | hx)
      · rcases List.mem_cons.mp hx with rfl | hx
        · exact .inr hold
        · exact .inl hx
      · exact .inr hx
    obtain ⟨found, hfound, hrest⟩ :=
      ih ⟨hi.missed, fun a b hab hb => waits a (hi.fed a b hab hb)⟩ h
    exact ⟨found, fun x hx => hfound x (waits x hx), hrest⟩
  | case4 seen current rest hne hnew ih =>
    have waits : ∀ x, x ∈ current :: rest ∨ x ∈ seen →
        x ∈ (Link.feeders t.links current).reverse ++ rest ∨ x ∈ current :: seen := by
      rintro x (hx | hx)
      · rcases List.mem_cons.mp hx with rfl | hx
        · exact .inr List.mem_cons_self
        · exact .inl (List.mem_append_right _ hx)
      · exact .inr (List.mem_cons_of_mem _ hx)
    have hnext : t.Searched y ((Link.feeders t.links current).reverse ++ rest)
        (current :: seen) := by
      refine ⟨List.not_mem_cons_of_ne_of_not_mem (Ne.symm hne) hi.missed, fun a b hab hb => ?_⟩
      rcases List.mem_cons.mp hb with rfl | hb
      · exact .inl (List.mem_append_left _ (List.mem_reverse.mpr (mem_feeders.mpr hab)))
      · exact waits a (hi.fed a b hab hb)
    obtain ⟨found, hfound, hrest⟩ := ih hnext h
    exact ⟨found, fun x hx => hfound x (waits x hx), hrest⟩

/-- A node depends on itself and on the nodes from which a chain of links leads
to it, and on no others. -/
theorem dependsOn_iff : t.dependsOn x y = true ↔ ReflTransGen t.Feeds y x := by
  constructor
  · intro h
    obtain ⟨a, ha, hpath⟩ := reaches_of_leadsBack h
    rwa [List.mem_singleton.mp ha] at hpath
  · intro hpath
    cases h : t.dependsOn x y with
    | true => rfl
    | false =>
      have start : t.Searched y [x] [] := ⟨List.not_mem_nil, fun _ _ _ hb => by cases hb⟩
      obtain ⟨found, hfound, hmissed, hclosed⟩ := closed_of_leadsBack start h
      have hx : x ∈ found := hfound x (.inl List.mem_cons_self)
      exact absurd (hpath.head_induction_on hx fun hab _ hb => hclosed _ _ hab hb) hmissed

theorem Acyclic.mono (h : t.Acyclic) (hsub : t'.links ⊆ t.links) : t'.Acyclic := by
  intro x hx
  refine h x (TransGen.mono ?_ x x hx)
  rintro a b ⟨l, hl, hends⟩
  exact ⟨l, hsub hl, hends⟩

/-- A chain of links after one was added runs through it or was there before. -/
theorem path_addLink {source target : SocketRef}
    (h : TransGen (t.addLink source target).Feeds x y) :
    TransGen t.Feeds x y ∨
      ReflTransGen t.Feeds x source.node ∧ ReflTransGen t.Feeds target.node y := by
  have step : ∀ {a b}, (t.addLink source target).Feeds a b →
      t.Feeds a b ∨ a = source.node ∧ b = target.node := by
    rintro a b ⟨l, hl, rfl, rfl⟩
    rcases List.mem_append.mp hl with hl | hl
    · exact .inl ⟨l, hl, rfl, rfl⟩
    · rw [List.mem_singleton.mp hl]
      exact .inr ⟨rfl, rfl⟩
  induction h with
  | single hxy =>
    rcases step hxy with hxy | ⟨rfl, rfl⟩
    · exact .inl (.single hxy)
    · exact .inr ⟨.refl, .refl⟩
  | tail _ hstep ih =>
    rcases step hstep with hstep | ⟨rfl, rfl⟩
    · exact ih.imp (·.tail hstep) fun ⟨h₁, h₂⟩ => ⟨h₁, h₂.tail hstep⟩
    · exact .inr ⟨ih.elim TransGen.to_reflTransGen And.left, .refl⟩

/-- A link closes no loop if its start does not depend on its end. -/
theorem Acyclic.addLink (h : t.Acyclic) {source target : SocketRef}
    (hd : t.dependsOn source.node target.node = false) : (t.addLink source target).Acyclic := by
  intro x hx
  rcases path_addLink hx with hx | ⟨hto, hfrom⟩
  · exact h x hx
  · rw [dependsOn_iff.mpr (hfrom.trans hto)] at hd
    cases hd

end Tree

end FormulaGraph
