import FormulaGraph.Proofs.History
import FormulaGraph.Session

/-!
The plain names of generated nodes. What a tag says is no tag, whatever the tag
is, and neither it nor the label of a frame is the name of the text frame. So a
node that has been given such a name is taken neither for a generated one nor
for the text frame.
-/

namespace FormulaGraph

open Numeric

namespace Tag

variable {cs : List Char}

theorem isMarked_dropMarks (cs : List Char) : isMarked (dropMarks cs) = false := by
  fun_induction dropMarks cs with
  | case1 c rest hc ih => exact ih
  | case2 c rest hc => simpa [isMarked] using hc
  | case3 cs hcs =>
    unfold isMarked
    split
    · next c rest => exact absurd rfl (hcs c rest)
    · rfl

theorem isMarked_of_isPrefix {l : List Char} (h : l <+: cs) (hl : isMarked l = true) :
    isMarked cs = true := by
  obtain ⟨rest, rfl⟩ := h
  unfold isMarked at hl
  split at hl
  · next c more => exact hl
  · cases hl

theorem isTag_strip (name : String) : isTag (strip name) = false := by
  refine Bool.eq_false_iff.mpr fun h => ?_
  rw [isTag, strip, String.toList_ofList] at h
  have := isMarked_of_isPrefix (List.takeWhile_prefix _) h
  rw [isMarked_dropMarks] at this
  cases this

theorem dropMarks_of_not_isMarked (h : isMarked cs = false) : dropMarks cs = cs := by
  unfold dropMarks
  split
  · next c rest => exact if_neg (by simpa [isMarked] using h)
  · rfl

theorem dropMarks_subset (cs : List Char) : dropMarks cs ⊆ cs := by
  fun_induction dropMarks cs with
  | case1 c rest hc ih =>
    exact List.Subset.trans ih (List.subset_cons_of_subset _ (List.subset_cons_self _ _))
  | case2 c rest hc => exact List.Subset.refl _
  | case3 cs hcs => exact List.Subset.refl _

/-- The tag of an operation says its name. -/
theorem strip_operation {op : String} (hop : '(' ∉ op.toList) (hm : isTag op = false)
    (ms : List String) : strip (operation op ms) = op := by
  have hrest : ∀ r : List Char, isMarked (op.toList ++ '(' :: r) = false := by
    intro r
    rw [isTag] at hm
    rcases hcs : op.toList with _ | ⟨c, _ | ⟨d, rest⟩⟩
    · unfold isMarked
      split
      · next c rest heq =>
        cases heq
        rfl
      · rfl
    · rfl
    · rw [hcs] at hm
      by_cases hd : d = '|'
      · subst hd
        exact hm
      · simp [isMarked, hd]
  rw [strip, toList_operation]
  change String.ofList ((dropMarks (op.toList ++ '(' :: _)).takeWhile _) = op
  rw [dropMarks_of_not_isMarked (hrest _), List.takeWhile_append_of_pos,
    List.takeWhile_cons_of_neg (by simp), List.append_nil, String.ofList_toList]
  intro c hc
  have : c ≠ '(' := fun heq => hop (heq ▸ hc)
  simpa using this

theorem mem_of_mem_strip {name : String} {c : Char} (h : c ∈ (strip name).toList) :
    c ∈ name.toList := by
  rw [strip, String.toList_ofList] at h
  exact dropMarks_subset _ ((List.takeWhile_prefix _).subset h)

end Tag

namespace Numeric

/-- A decimal is written with digits and a point. -/
theorem Decimal.isDigit_of_mem_text {d : Decimal} {c : Char} (h : c ∈ d.text.toList) :
    c.isDigit = true ∨ c = '.' := by
  have digits : ∀ n : Nat, c ∈ (toString n).toList → c.isDigit = true ∨ c = '.' := by
    intro n hc
    rw [show (toString n).toList = Nat.toDigits 10 n from Nat.toList_repr] at hc
    exact .inl (isDigit_toDigits c hc)
  unfold text at h
  split at h
  · exact digits _ h
  · dsimp only at h
    rw [show (toString (d.digits % Nat.pow 10 (-d.exponent).toNat)).toList =
      Nat.toDigits 10 (d.digits % 10 ^ (-d.exponent).toNat) from Nat.toList_repr] at h
    change c ∈ String.toList (if d.fraction.isEmpty then _ else _) at h
    split at h
    · exact digits _ h
    · rw [String.toList_append, String.toList_append] at h
      rcases List.mem_append.mp h with h | h
      · rcases List.mem_append.mp h with h | h
        · exact digits _ h
        · exact .inr (by simpa using h)
      · change c ∈ (String.ofList d.fraction).toList at h
        rw [String.toList_ofList] at h
        exact .inl (isDigit_fraction c h)

theorem Double.capital_not_mem_text (x : Double) : 'E' ∉ x.text.toList := by
  intro h
  unfold text at h
  split at h
  · exact absurd h (by decide)
  · have body : 'E' ∉ (if x.isInfinite then "inf"
        else if x.isZero then "0" else (shortest x.magnitude).text).toList := by
      split
      · decide
      · split
        · decide
        · intro h
          rcases Decimal.isDigit_of_mem_text h with h | h <;> exact absurd h (by decide)
    dsimp only at h
    split at h
    · rw [String.toList_append] at h
      rcases List.mem_append.mp h with h | h
      · exact absurd h (by decide)
      · exact body h
    · exact body h

end Numeric

namespace Function

theorem isTag_name (f : Function) : Tag.isTag f.name = false := by
  have : ∀ f ∈ all, Tag.isTag f.name = false := by decide
  exact this f f.mem_all

theorem name_ne_textFrameName (f : Function) : f.name ≠ Tree.textFrameName := by
  have : ∀ f ∈ all, f.name ≠ Tree.textFrameName := by decide
  exact this f f.mem_all

end Function

namespace Tree

variable {t t' : Tree} {x : NodeId} {n : Node}

theorem not_isTag_of_mem_frameLabels {label : String} (h : label ∈ frameLabels) :
    Tag.isTag label = false ∧ label ≠ textFrameName := by
  have : ∀ label ∈ frameLabels, Tag.isTag label = false ∧ label ≠ textFrameName := by decide
  exact this label h

theorem Reboundary.node?_of_not_group {X : SocketId → Prop} (hr : Reboundary X t t')
    (hx : x.isGroup = false) : t'.node? x = t.node? x := by
  obtain ⟨hi, ho⟩ := ne_of_not_group hx
  rw [hr.node?]
  cases hn : t.node? x with
  | none => rfl
  | some n =>
    rw [Option.map_some, mirrored, id_of_node? hn, if_neg hi, if_neg ho]

/-- The tags of generated nodes do not say the name of the text frame. Frames go
by their labels. -/
def Telling (t : Tree) : Prop :=
  ∀ x n, t.node? x = some n → Tag.isTag n.name = true → n.type ≠ .frame →
    Tag.strip n.name ≠ textFrameName

structure Legible (t : Tree) : Prop where
  labelled : t.Labelled
  telling : t.Telling

/-- What a generated node is called after baking is neither a tag nor the name
of the text frame. -/
theorem Legible.name_untagged (h : t.Legible) (hn : t.node? x = some n)
    (htag : Tag.isTag n.name = true) :
    Tag.isTag n.untagged.name = false ∧ n.untagged.name ≠ textFrameName := by
  unfold Node.untagged
  rw [if_pos htag]
  dsimp only [Node.rename]
  split
  · next htype => exact not_isTag_of_mem_frameLabels (h.labelled x n hn htag htype)
  · next htype => exact ⟨Tag.isTag_strip _, h.telling x n hn htag htype⟩

/-- The generated nodes were there before, all but their frames the same. -/
def Inherits (t t' : Tree) : Prop :=
  ∀ x n', t'.node? x = some n' → Tag.isTag n'.name = true →
    ∃ n, t.node? x = some n ∧ n'.orphan = n.orphan

namespace Inherits

theorem legible (h : t.Inherits t') (ht : t.Legible) : t'.Legible := by
  have look : ∀ x n', t'.node? x = some n' → Tag.isTag n'.name = true →
      ∃ n, t.node? x = some n ∧ n'.name = n.name ∧ n'.type = n.type ∧ n'.label = n.label := by
    intro x n' hn' htag
    obtain ⟨n, hn, horphan⟩ := h x n' hn' htag
    exact ⟨n, hn, show n'.orphan.name = n.orphan.name by rw [horphan],
      show n'.orphan.type = n.orphan.type by rw [horphan],
      show n'.orphan.label = n.orphan.label by rw [horphan]⟩
  constructor
  · intro x n' hn' htag htype
    obtain ⟨n, hn, hname, hsame, hlabel⟩ := look x n' hn' htag
    exact hlabel ▸ ht.labelled x n hn (hname ▸ htag) (hsame ▸ htype)
  · intro x n' hn' htag htype
    obtain ⟨n, hn, hname, hsame, -⟩ := look x n' hn' htag
    exact hname ▸ ht.telling x n hn (hname ▸ htag) (hsame ▸ htype)

theorem reboundary {X : SocketId → Prop} (hr : Reboundary X t t') : t.Inherits t' :=
  fun _ n' hn' htag =>
    ⟨n', (hr.node?_of_not_group (hr.grouped.not_group hn' htag)).symm.trans hn', rfl⟩

theorem beside (hk : Keeps (· ≠ x) t t')
    (hx : ∀ n, t'.node? x = some n → Tag.isTag n.name = false) :
    t.Inherits t' := by
  intro y n' hn' htag
  have hne : y ≠ x := by
    rintro rfl
    rw [hx n' hn'] at htag
    cases htag
  obtain ⟨n, hn, horphan⟩ := node?_of_bare? (hk.nodes y hne).symm hn'
  exact ⟨n, hn, horphan.symm⟩

end Inherits

end Tree

namespace Pass

variable {roster : List Handle} {p p' : Pass} {t : Tree} {unknowns : List String} {term : Term}
  {options : Options} {v : Operand} {r : Except Fault Report}

/-- The nodes of a pass are made for functions, separations and constants. -/
theorem Orderly.strip_ne (hp : p.Orderly roster) {id : NodeId} {n : Node} (hu : id ∈ p.used)
    (hn : p.tree.node? id = some n) (htype : n.type ≠ .frame) :
    Tag.strip n.name ≠ Tree.textFrameName := by
  obtain ⟨m, hm, -, hkey⟩ := hp.sound.used id hu
  cases hn.symm.trans hm
  obtain ⟨e, he, hname⟩ := List.mem_map.mp (hkey.resolve_right fun hframe => htype hframe.1)
  have hexplained := hp.explained e he
  rw [hname] at hexplained
  generalize e.2 = handles at hexplained
  cases hexplained with
  | @call f _ _ _ eq =>
    rw [eq, Tag.strip_operation f.no_bracket_name f.isTag_name]
    exact f.name_ne_textFrameName
  | separation eq =>
    rw [eq, Tag.strip_operation (by decide) (by decide)]
    decide
  | @constant x _ eq =>
    intro hstrip
    have hmem : 'E' ∈ (Tag.strip n.name).toList := by
      rw [hstrip]
      decide
    have := Tag.mem_of_mem_strip hmem
    rw [eq, String.toList_append] at this
    rcases List.mem_append.mp this with h | h
    · exact absurd h (by decide)
    · exact x.capital_not_mem_text h

theorem Extends.legible (h : Extends p p') (hp' : p'.Orderly roster) (ht : p.tree.Legible) :
    p'.tree.Legible := by
  refine ⟨h.labels ht.labelled, fun x n' hn' htag htype => ?_⟩
  rcases h.fresh x (Tree.contains_iff.mpr ⟨n', hn'⟩) with hx | hu
  · obtain ⟨n, hn⟩ := Tree.contains_iff.mp hx
    obtain ⟨m, hm, hname, hsame⟩ := h.adds.nodes x n hn
    cases hn'.symm.trans hm
    rw [hname] at htag ⊢
    exact ht.telling x n hn htag (hsame ▸ htype)
  · exact hp'.strip_ne hu hn' htype

theorem Finished.inherits (h : Finished options v p t) : p.tree.Inherits t := by
  intro x n' hn' htag
  have hu := h.tagged n' (Tree.mem_of_node? hn') htag
  rw [Tree.id_of_node? hn'] at hu
  obtain ⟨n, hn, horphan⟩ := Tree.node?_of_bare? (h.keeps.nodes x (.inr hu)).symm hn'
  exact ⟨n, hn, horphan.symm⟩

theorem Staged.legible (h : Staged t unknowns term options r p) (ht : t.Legible) :
    p.tree.Legible := by
  have redrawn : ∀ {t' : Tree}, Redrawn (t.setActive (some .groupInput)) t' → t'.Legible :=
    fun hr => (Tree.Inherits.reboundary hr).legible ⟨ht.labelled, ht.telling⟩
  cases h with
  | undeclared _ hr => exact redrawn hr
  | unfinished _ opened orderly adds => exact adds.legible orderly (redrawn opened.redrawn)
  | done _ opened _ orderly adds concludes =>
    exact concludes.finished.inherits.legible (adds.legible orderly (redrawn opened.redrawn))

end Pass

end FormulaGraph
