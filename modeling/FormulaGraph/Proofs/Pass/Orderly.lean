import FormulaGraph.Proofs.Pass.Linking
import FormulaGraph.Proofs.Pass.Reuse

/-!
What the handles of a pass stand for. A handle means a lowered argument if the
tree reads so at its socket; every result of an orderly pass means what its tag
says of the operands in it, and no two handles share a marker. So a tag met
again has the operands it was made for.
-/

namespace FormulaGraph

open Run Numeric

variable {type : SocketType} {kind : Kind}

def Kind.Carries (kind : Kind) (type : SocketType) : Prop :=
  if kind.isNumeric then type.isNumeric = true else kind.socketType? = some type

theorem Kind.Carries.ne_output (h : kind.Carries type) : kind ≠ .output := by
  rintro rfl
  cases h

theorem Kind.carries_of_numeric (hk : kind.isNumeric = true) (ht : type.isNumeric = true) :
    kind.Carries type := by
  unfold Carries
  rwa [if_pos hk]

theorem Kind.Carries.numeric (h : kind.Carries type) (hk : kind.isNumeric = true) :
    type.isNumeric = true := by
  unfold Carries at h
  rwa [if_pos hk] at h

namespace Pass

variable {h : Handle} {handles : List Handle}

def Known (roster : List Handle) (p : Pass) (h : Handle) : Prop :=
  h ∈ roster ∨ ∃ e ∈ p.results, h ∈ e.2

/-- What an operand stands for in a state of the pass. -/
inductive Means (roster : List Handle) (p : Pass) : Operand → Lowered → Prop where
  | carried {h : Handle} {kind : Kind} {type : SocketType} {m : Meaning}
      (known : Known roster p h) (kind_eq : h.kind = kind) (carries : kind.Carries type)
      (type_eq : p.tree.outputType? h.socket = some type)
      (reads : p.tree.Reads (.output h.socket) m) :
      Means roster p (.handle h) (.carried kind type m)
  | number {x : Numeric.Single} : Means roster p (.scalar x) (.number x)

/-- Why handles are the results of a tag. Operands come with what they stand
for. -/
inductive Explained (roster : List Handle) (p : Pass) (tag : String) : List Handle → Prop where
  | call {f : Function} {k : Nat} {zs : List (Operand × Lowered)} {h : Handle}
      (eq : tag = Tag.operation f.name (markers k (zs.map Prod.fst)).1)
      (literals : (markers k (zs.map Prod.fst)).2 ≤ p.literals)
      (args : ∀ z ∈ zs, Means roster p z.1 z.2)
      (means : Means roster p (.handle h) (.apply p.tree.editor f (zs.map Prod.snd))) :
      Explained roster p tag [h]
  | separation {k : Nat} {v : Operand} {x : Lowered} {handles : List Handle}
      (eq : tag = Tag.operation "sepaxyz" (markers k [v]).1)
      (literals : (markers k [v]).2 ≤ p.literals) (arg : Means roster p v x)
      (parts : ∀ axis h, handles[axis]? = some h →
        Means roster p (.handle h) (Blueprint.separate axis x).lower) :
      Explained roster p tag handles
  | constant {x : Double} {h : Handle} (eq : tag = Tag.constantMark ++ x.text) (proper : x.Proper)
      (means : Means roster p (.handle h) (.carried .scalar .float (.constant x.toSingle))) :
      Explained roster p tag [h]

structure Orderly (roster : List Handle) (p : Pass) : Prop where
  sound : p.Sound
  tidy : p.tree.Tidy
  closed : p.tree.Closed p.Settled
  inputs : ∀ h ∈ roster, h.node = .groupInput
  numbered : ∀ h, Known roster p h → h.number < p.counts.get h.kind
  unique : ∀ h h', Known roster p h → Known roster p h' → h.kind = h'.kind →
    h.number = h'.number → h = h'
  explained : ∀ e ∈ p.results, Explained roster p e.1 e.2

variable {roster : List Handle} {p p' : Pass} {tag : String} {id : NodeId} {o : Operand}
  {x : Lowered} {f : Function} {zs : List (Operand × Lowered)}

theorem Known.settled (hp : p.Orderly roster) (hk : Known roster p h) : p.Settled h.node := by
  rcases hk with hk | ⟨e, he, hh⟩
  · exact .inl (hp.inputs h hk)
  · exact .inr ⟨e, he, h, hh, rfl⟩

theorem Known.mono (hg : p.results <:+ p'.results) (hk : Known roster p h) : Known roster p' h :=
  hk.imp_right fun ⟨e, he, hh⟩ => ⟨e, hg.subset he, hh⟩

/-- Handles that can be operands differ in kind or in number. -/
structure Distinct (roster : List Handle) (p : Pass) : Prop where
  numbered : ∀ h, Known roster p h → h.number < p.counts.get h.kind
  unique : ∀ h h', Known roster p h → Known roster p h' → h.kind = h'.kind →
    h.number = h'.number → h = h'

namespace Distinct

theorem of_known (hd : Distinct roster p) (hk : ∀ h, Known roster p' h → Known roster p h)
    (hc : ∀ k, p.counts.get k ≤ p'.counts.get k) : Distinct roster p' where
  numbered := fun h hh => Nat.lt_of_lt_of_le (hd.numbered h (hk h hh)) (hc h.kind)
  unique := fun h h' hh hh' => hd.unique h h' (hk h hh) (hk h' hh')

/-- A step that gives handles with the next numbers. -/
theorem closes (hd : Distinct roster p) (hc : Closes tag p id handles p')
    (fresh : ∀ h ∈ handles, p.counts.get h.kind ≤ h.number ∧ h.number < p'.counts.get h.kind)
    (apart : ∀ h ∈ handles, ∀ h' ∈ handles, h.kind = h'.kind → h.number = h'.number → h = h') :
    Distinct roster p' := by
  have known : ∀ g, Known roster p' g → g ∈ handles ∨ Known roster p g := by
    rintro g (hg | ⟨e, he, hg⟩)
    · exact .inr (.inl hg)
    · rw [hc.results] at he
      rcases List.mem_cons.mp he with rfl | he
      · exact .inl hg
      · exact .inr (.inr ⟨e, he, hg⟩)
  constructor
  · intro g hg
    rcases known g hg with hg | hg
    · exact (fresh g hg).2
    · exact Nat.lt_of_lt_of_le (hd.numbered g hg) (hc.grows.counts g.kind)
  · intro g g' hg hg' hkind hnumber
    rcases known g hg with hg | hg <;> rcases known g' hg' with hg' | hg'
    · exact apart g hg g' hg' hkind hnumber
    · have hfresh := (fresh g hg).1
      have hold := hd.numbered g' hg'
      rw [hkind] at hfresh
      omega
    · have hfresh := (fresh g' hg').1
      have hold := hd.numbered g hg
      rw [hkind] at hold
      omega
    · exact hd.unique g g' hg hg' hkind hnumber

end Distinct

theorem Orderly.distinct (hp : p.Orderly roster) : Distinct roster p := ⟨hp.numbered, hp.unique⟩

namespace Means

theorem unique (hs : p.tree.Sane) {y : Lowered} (h : Means roster p o x) (h' : Means roster p o y) :
    x = y := by
  cases h with
  | carried known kind_eq carries type_eq reads =>
    cases h' with
    | carried _ kind_eq' _ type_eq' reads' =>
      rw [type_eq] at type_eq'
      cases type_eq'
      rw [← kind_eq, ← kind_eq', reads.unique hs reads']
  | number =>
    cases h'
    rfl

theorem kind_eq (h : Means roster p o x) : o.kind = x.kind := by
  cases h with
  | carried _ kind_eq => exact kind_eq
  | number => rfl

theorem isVector_eq (h : Means roster p o x) : o.isVector = x.isVector := by
  rw [Operand.isVector, h.kind_eq]
  rfl

theorem grows (hp : p.Orderly roster) (hg : Grows p p') (h : Means roster p o x) :
    Means roster p' o x := by
  cases h with
  | carried known kind_eq carries type_eq reads =>
    have hs := known.settled hp
    exact .carried (known.mono hg.results) kind_eq carries
      ((Tree.outputType?_of_keeps hg.keeps hs).trans type_eq) (reads.keeps hp.closed hg.keeps hs)
  | number => exact .number

theorem ready (hp : p.Orderly roster) (h : Means roster p o x) : p.Ready o := by
  cases h with
  | carried known => exact known.settled hp
  | number => exact ⟨_, rfl⟩

theorem linkable (hp : p.Orderly roster) (h : Means roster p o x) (hx : x.kind.isNumeric = true) :
    Linkable p.tree p.Settled o := by
  cases h with
  | carried known kind_eq carries type_eq reads =>
    exact ⟨kind_eq ▸ carries.ne_output, known.settled hp, _, type_eq, carries.numeric hx⟩
  | number => exact ⟨_, rfl⟩

end Means

theorem Explained.grows (hp : p.Orderly roster) (hg : Grows p p')
    (h : Explained roster p tag handles) : Explained roster p' tag handles := by
  cases h with
  | call eq literals args means =>
    refine .call eq (Nat.le_trans literals hg.literals) (fun z hz => (args z hz).grows hp hg) ?_
    rw [hg.editor]
    exact means.grows hp hg
  | separation eq literals arg parts =>
    exact .separation eq (Nat.le_trans literals hg.literals) (arg.grows hp hg)
      fun axis h hh => (parts axis h hh).grows hp hg
  | constant eq proper means => exact .constant eq proper (means.grows hp hg)

/-- Markers that are older than the literals still to be marked tell the
operands. -/
theorem operands_of_markers {k l : Nat} {as bs : List Operand} (hle : (markers k as).2 ≤ l)
    (heq : (markers k as).1 = (markers l bs).1)
    (hu : ∀ h h', .handle h ∈ as → .handle h' ∈ bs → h.kind = h'.kind → h.number = h'.number →
      h = h') : as = bs := by
  induction as generalizing k l bs with
  | nil =>
    match bs with
    | [] => rfl
    | .handle _ :: _ | .literal _ :: _ => cases heq
  | cons a as ih =>
    cases a with
    | handle h =>
      match bs with
      | [] => cases heq
      | .handle h' :: bs =>
        obtain ⟨hmark, hrest⟩ := List.cons.inj heq
        obtain ⟨hletter, hnumber⟩ := numbered_injective hmark
        rw [hu h h' List.mem_cons_self List.mem_cons_self (Kind.letter_injective hletter) hnumber,
          ih hle hrest fun h h' hm hm' => hu h h' (List.mem_cons_of_mem _ hm)
            (List.mem_cons_of_mem _ hm')]
      | .literal _ :: _ =>
        have hmark : numbered h.kind.letter h.number = numbered 'p' l := (List.cons.inj heq).1
        obtain ⟨hletter, -⟩ := numbered_injective hmark
        exact absurd hletter h.kind.letter_ne.2
    | literal c =>
      -- a literal of the older tag has a smaller number than any of the new one
      match bs with
      | [] => cases heq
      | .handle h :: _ =>
        obtain ⟨hletter, -⟩ := numbered_injective (c := 'p') (List.cons.inj heq).1
        exact absurd hletter.symm h.kind.letter_ne.2
      | .literal _ :: _ =>
        have hmark : numbered 'p' k = numbered 'p' l := (List.cons.inj heq).1
        obtain ⟨-, hnumber⟩ := numbered_injective hmark
        have hlt : k + 1 ≤ l := Nat.le_trans (literals_le_markers (k + 1) as) hle
        omega

namespace Orderly

variable (hp : p.Orderly roster)
include hp

theorem args_of_markers {k : Nat} {zs zs' : List (Operand × Lowered)}
    (hle : (markers k (zs.map Prod.fst)).2 ≤ p.literals)
    (heq : (markers k (zs.map Prod.fst)).1 = (markers p.literals (zs'.map Prod.fst)).1)
    (h : ∀ z ∈ zs, Means roster p z.1 z.2) (h' : ∀ z ∈ zs', Means roster p z.1 z.2) : zs = zs' := by
  have hfst : zs.map Prod.fst = zs'.map Prod.fst := by
    have known : ∀ {zs : List (Operand × Lowered)} {g : Handle},
        (∀ z ∈ zs, Means roster p z.1 z.2) → .handle g ∈ zs.map Prod.fst → Known roster p g := by
      intro zs g hm hg
      obtain ⟨⟨o, x⟩, hz, rfl⟩ := List.mem_map.mp hg
      cases hm _ hz with
      | carried known => exact known
    exact operands_of_markers hle heq fun g g' hg hg' =>
      hp.unique g g' (known h hg) (known h' hg')
  clear heq hle
  induction zs generalizing zs' with
  | nil =>
    cases zs' with
    | nil => rfl
    | cons => cases hfst
  | cons z zs ih =>
    cases zs' with
    | nil => cases hfst
    | cons z' zs' =>
      obtain ⟨hz, hrest⟩ := List.cons.inj hfst
      have hx := h z List.mem_cons_self
      rw [hz] at hx
      rw [Prod.ext hz (hx.unique hp.sound.sane (h' z' List.mem_cons_self)),
        ih (fun z hz => h z (List.mem_cons_of_mem _ hz))
          (fun z hz => h' z (List.mem_cons_of_mem _ hz)) hrest]

/-- A call that has a result is one on the same arguments. -/
theorem means_of_call (hz : ∀ z ∈ zs, Means roster p z.1 z.2)
    {l : List Handle}
    (hm : (Tag.operation f.name (markers p.literals (zs.map Prod.fst)).1, h :: l) ∈ p.results) :
    Means roster p (.handle h) (.apply p.tree.editor f (zs.map Prod.snd)) := by
  have he := hp.explained _ hm
  generalize heq : Tag.operation f.name (markers p.literals (zs.map Prod.fst)).1 = tag at he
  cases he with
  | call eq literals args means =>
    obtain ⟨hname, hmarks⟩ := Tag.operation_injective (Function.no_bracket_name _)
      (Function.no_bracket_name _) plain_markers plain_markers (heq.trans eq)
    cases Function.name_injective hname
    cases hp.args_of_markers literals hmarks.symm args hz
    exact means
  | separation eq => exact (Tag.not_call_of_separation heq.symm eq).elim
  | constant eq =>
    have := Tag.letter?_of_constant eq
    rw [Tag.letter?_of_call heq.symm] at this
    exact absurd this (by decide)

theorem means_of_separation {v : Operand} (hv : Means roster p v x)
    (hm : (Tag.operation "sepaxyz" (markers p.literals [v]).1, handles) ∈ p.results) {axis : Nat}
    (hh : handles[axis]? = some h) :
    Means roster p (.handle h) (Blueprint.separate axis x).lower := by
  have he := hp.explained _ hm
  generalize heq : Tag.operation "sepaxyz" (markers p.literals [v]).1 = tag at he
  cases he with
  | call eq => exact (Tag.not_call_of_separation eq heq.symm).elim
  | @separation k v' x' _ eq literals arg parts =>
    obtain ⟨-, hmarks⟩ := Tag.operation_injective (by decide) (by decide) plain_markers
      plain_markers (heq.trans eq)
    have hzs : [(v', x')] = [(v, x)] := hp.args_of_markers literals hmarks.symm
      (by simpa using arg) (by simpa using hv)
    cases hzs
    exact parts axis h hh
  | constant eq =>
    have := Tag.letter?_of_constant eq
    rw [Tag.letter?_of_call heq.symm] at this
    exact absurd this (by decide)

theorem means_of_constant {x : Double} (hx : x.Proper) {l : List Handle}
    (hm : (Tag.constantMark ++ x.text, h :: l) ∈ p.results) :
    Means roster p (.handle h) (.carried .scalar .float (.constant x.toSingle)) := by
  have he := hp.explained _ hm
  generalize heq : Tag.constantMark ++ x.text = tag at he
  have hletter := Tag.letter?_of_constant heq.symm
  cases he with
  | call eq =>
    rw [Tag.letter?_of_call eq] at hletter
    exact absurd hletter (by decide)
  | separation eq =>
    rw [Tag.letter?_of_call eq] at hletter
    exact absurd hletter (by decide)
  | @constant y _ eq proper means =>
    have htext : x.text = y.text := by
      have := congrArg String.toList (heq.trans eq)
      rw [String.toList_append, String.toList_append] at this
      exact String.toList_inj.mp (List.append_cancel_left this)
    cases Double.text_injective hx proper htext
    exact means

end Orderly

end Pass

end FormulaGraph
