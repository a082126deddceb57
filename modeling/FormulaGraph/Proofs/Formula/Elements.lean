import FormulaGraph.Proofs.Formula.Factors
import FormulaGraph.Proofs.Text.Occurrences

/-!
Entering the elements of a formula under their classes. An element is an atom
and entered as it is, or a composite and split into factors wherever it is a
run of the text. When all elements are entered, the members of each class are
the runs of that class in the text that is left.
-/

namespace FormulaGraph

namespace Text.SortedSet

variable {s : SortedSet} {x y : String}

theorem mem_insert : y ∈ s.insert x ↔ y = x ∨ y ∈ s := by
  induction s with
  | nil => simp [insert]
  | cons z zs ih =>
    unfold insert
    split
    · simp
    · split
      · next heq =>
        subst heq
        simp
      · simp only [List.mem_cons, ih]
        exact or_left_comm

theorem mem_ofList {xs : List String} : y ∈ ofList xs ↔ y ∈ xs := by
  have hfold : ∀ s : SortedSet, y ∈ xs.foldl insert s ↔ y ∈ s ∨ y ∈ xs := by
    induction xs with
    | nil => simp
    | cons x xs ih =>
      intro s
      rw [List.foldl_cons, ih, mem_insert, List.mem_cons]
      tauto
  rw [ofList, hfold]
  simp

end Text.SortedSet

namespace Plain

open Text FormulaGraph.Symbol

variable {d : Dialect} {c : Char} {before : Option Char} {a b x text text' : List Char}

theorem isSeparator_of_mem (h : c ∈ separators) : isSeparator d c = true := by
  rw [isSeparator, List.contains_iff_mem.mpr h, Bool.true_or]

/-- Signs put in beside parentheses, in a text behind the character `before`. -/
inductive Signed : (before : Option Char) → List Char → List Char → Prop where
  | nil {before : Option Char} : Signed before [] []
  | keep {before : Option Char} {c : Char} {text text' : List Char} :
    Signed (some c) text text' → Signed before (c :: text) (c :: text')
  | sign {before : Option Char} {c : Char} {text text' : List Char} :
    before = some ')' ∨ c = '(' → Signed (some c) text text' →
    Signed before (c :: text) ('*' :: c :: text')

namespace Signed

theorem behind (w : List Char) (h : Signed (w.getLast?.or before) text text') :
    Signed before (w ++ text) (w ++ text') := by
  induction w generalizing before with
  | nil => exact h
  | cons c w ih => exact .keep (ih (by rwa [← getLast?_cons_or]))

theorem refl (text : List Char) : Signed before text text := by
  have h : Signed before (text ++ []) (text ++ []) := behind text .nil
  rwa [List.append_nil] at h

/-- A scan that puts a sign between two parts, one of which is a parenthesis. -/
theorem of_scanned {kept : List (List Char)} (hb : b ≠ [])
    (hp : a.getLast? = some ')' ∨ b.head? = some '(')
    (h : Scanned (a ++ b) before text kept) :
    Signed before text ((a ++ '*' :: b).intercalate kept) := by
  induction h with
  | last _ =>
    rw [List.intercalate_singleton]
    exact refl _
  | @turn before w rest kept _ _ hkept ih =>
    obtain ⟨piece, pieces, rfl⟩ := hkept.exists_cons
    obtain ⟨c, b, rfl⟩ := List.exists_cons_of_ne_nil hb
    rw [List.intercalate_cons_cons, List.append_assoc, List.append_assoc, List.append_assoc]
    refine behind w (behind a (.sign ?_ (behind b ?_)))
    · refine hp.imp (fun hlast => by rw [hlast]; rfl) fun hhead => ?_
      exact Option.some.inj hhead
    · rw [List.getLast?_append, List.getLast?_cons, Option.some_or] at ih
      cases hb : b.getLast? <;> simpa [hb] using ih

/-- Signs divide no run. -/
theorem runs_eq (h : Signed before text text') (hx : x.getLast? = before) :
    runs d (x ++ text') = runs d (x ++ text) := by
  have sep : ∀ {c : Char}, c ∈ separators → isSeparator d c = true := isSeparator_of_mem
  induction h generalizing x with
  | nil => rfl
  | keep _ ih => rw [List.append_cons, ih List.getLast?_concat, ← List.append_cons]
  | @sign before c text text' hc _ ih =>
    have hcut : runs d (x ++ c :: text) = runs d x ++ runs d (c :: text) := by
      rcases hc with rfl | rfl
      · obtain ⟨x, rfl⟩ := List.getLast?_eq_some_iff.mp hx
        rw [List.append_assoc, List.singleton_append, runs_cut (sep (by decide)),
          runs_cut (sep (by decide))]
        simp [runs]
      · rw [runs_cut (sep (by decide)), runs_cons (sep (by decide))]
    have hrest : runs d (c :: text') = runs d (c :: text) := ih (x := [c]) rfl
    rw [runs_cut (sep (by decide)), hrest, hcut]

end Signed

theorem signed_replaceAlone (ha : a ≠ []) (hb : b ≠ [])
    (hp : a.getLast? = some ')' ∨ b.head? = some '(') (text : List Char) :
    Signed none text (replaceAlone (a ++ b) (a ++ '*' :: b) text) := by
  have hne : a ++ b ≠ [] := by simp [ha]
  obtain ⟨kept, hkept, -⟩ := exists_scanned hne text
  rw [hkept.replaceAlone_eq hne]
  exact .of_scanned hb hp hkept

theorem signed_multiplyElement {element : String} (hne : element.toList ≠ []) (text : List Char) :
    ∃ text', Signed none text text' ∧ Signed none text' (multiplyElement text element) :=
  ⟨_, signed_replaceAlone hne (List.cons_ne_nil '(' []) (.inr rfl) text,
    signed_replaceAlone (List.cons_ne_nil ')' []) hne (.inl rfl) _⟩

theorem runs_multiplyElement {element : String} (hne : element.toList ≠ []) (text : List Char) :
    runs d (multiplyElement text element) = runs d text := by
  obtain ⟨text', h, h'⟩ := signed_multiplyElement hne text
  exact (h'.runs_eq (x := []) rfl).trans (h.runs_eq (x := []) rfl)

variable {x : String} {w factor : List Char} {p : Plain}

section Products

theorem mem_elements {text : List Char} : x ∈ elements d text ↔ x.toList ∈ runs d text := by
  unfold elements
  rw [SortedSet.mem_ofList, List.mem_map]
  constructor
  · rintro ⟨w, hw, rfl⟩
    rwa [String.toList_ofList]
  · exact fun h => ⟨_, h, String.ofList_toList⟩

theorem signed_multiplyDigits (before : Option Char) (text : List Char) :
    Signed before text (multiplyDigits before text) := by
  induction text generalizing before with
  | nil => exact .nil
  | cons c cs ih =>
    unfold multiplyDigits
    split
    · next h =>
      rw [Bool.and_eq_true, beq_iff_eq] at h
      exact .sign (.inr h.1) (ih _)
    · exact .keep (ih _)

/-- Products that are inserted divide no run. -/
theorem runs_insertProducts (r : Reading) (text : List Char) :
    runs r.dialect (insertProducts r (elements r.dialect text) text) = runs r.dialect text := by
  have hfold : ∀ (es : List String) (text : List Char), (∀ e ∈ es, e.toList ≠ []) →
      runs r.dialect (es.foldl multiplyElement text) = runs r.dialect text := by
    intro es
    induction es with
    | nil => exact fun text _ => rfl
    | cons e es ih =>
      intro text hes
      obtain ⟨he, hes⟩ := List.forall_mem_cons.mp hes
      rw [List.foldl_cons, ih _ hes, runs_multiplyElement he]
  unfold insertProducts
  split
  · exact hfold _ text fun e he => (of_mem_runs (mem_elements.mp (List.mem_of_mem_filter he))).2
  · exact (signed_multiplyDigits none text).runs_eq (x := []) rfl

end Products

section Classes

inductive Class where
  | unknown | constant | function
deriving DecidableEq

/-- The class of a run of a plain formula, by its spelling. -/
def classOf (d : Dialect) (x : String) : Class :=
  if isFunction d x then .function
  else if x.toList.head?.any Char.isDigit then .constant
  else .unknown

def members (p : Plain) : Class → SortedSet
  | .unknown => p.unknowns
  | .constant => p.constants
  | .function => p.functions

def file (d : Dialect) (p : Plain) (x : String) : Plain :=
  match classOf d x with
  | .unknown => { p with unknowns := p.unknowns.insert x }
  | .constant => { p with constants := p.constants.insert x }
  | .function => { p with functions := p.functions.insert x }

@[simp] theorem text_file (x : String) : (p.file d x).text = p.text := by
  unfold file
  split <;> rfl

@[simp] theorem composites_file (x : String) : (p.file d x).composites = p.composites := by
  unfold file
  split <;> rfl

theorem mem_file {y : String} {k : Class} :
    y ∈ (p.file d x).members k ↔ y ∈ p.members k ∨ y = x ∧ classOf d y = k := by
  have hinsert : y ∈ (p.file d x).members k ↔
      if classOf d x = k then y = x ∨ y ∈ p.members k else y ∈ p.members k := by
    unfold file
    cases classOf d x <;> cases k <;> simp [members, SortedSet.mem_insert]
  rw [hinsert]
  split
  · next h =>
    subst h
    constructor
    · rintro (rfl | h)
      · exact .inr ⟨rfl, rfl⟩
      · exact .inl h
    · rintro (h | ⟨rfl, -⟩)
      · exact .inr h
      · exact .inl rfl
  · next h =>
    refine ⟨.inl, ?_⟩
    rintro (hm | ⟨rfl, hk⟩)
    · exact hm
    · exact absurd hk h

section Fold

variable {xs : List String}

theorem text_foldl_file : (xs.foldl (file d) p).text = p.text := by
  induction xs generalizing p with
  | nil => rfl
  | cons x xs ih => rw [List.foldl_cons, ih, text_file]

theorem composites_foldl_file : (xs.foldl (file d) p).composites = p.composites := by
  induction xs generalizing p with
  | nil => rfl
  | cons x xs ih => rw [List.foldl_cons, ih, composites_file]

theorem mem_foldl_file {y : String} {k : Class} :
    y ∈ (xs.foldl (file d) p).members k ↔ y ∈ p.members k ∨ y ∈ xs ∧ classOf d y = k := by
  induction xs generalizing p with
  | nil => simp
  | cons x xs ih =>
    rw [List.foldl_cons, ih, mem_file, List.mem_cons]
    tauto

end Fold

/-- Functions have names of several letters. -/
theorem letters_of_isFunction (h : isFunction d x = true) :
    2 ≤ x.toList.length ∧ ∀ c ∈ x.toList, isLetter c = true := by
  have hall : (Function.all.all fun f =>
      decide (2 ≤ f.name.toList.length) && f.name.toList.all isLetter) = true := by decide +kernel
  obtain ⟨f, hfun⟩ := Option.isSome_iff_exists.mp h
  have hname : Function.all.find? (·.name == x) = some f := (Option.filter_eq_some_iff.mp hfun).1
  have heq : f.name = x := by simpa using List.find?_some hname
  have hf := List.all_eq_true.mp hall f (List.mem_of_find?_eq_some hname)
  rw [Bool.and_eq_true, decide_eq_true_eq, List.all_eq_true] at hf
  rwa [← heq]

theorem classOf_numeral (h : Numeral x.toList) : classOf d x = .constant := by
  obtain ⟨c, hc, hdigit⟩ := h.head
  have hfun : isFunction d x ≠ true := by
    intro hfun
    have hletter := (letters_of_isFunction hfun).2 c (List.mem_of_head? hc)
    rw [not_isDigit_of_isLetter hletter] at hdigit
    cases hdigit
  rw [classOf, if_neg hfun, if_pos]
  rw [Option.mem_def.mp hc]
  exact hdigit

theorem classOf_word (hfun : isFunction d x = false) (h : ∀ c ∈ x.toList, isLetter c = true) :
    classOf d x = .unknown := by
  rw [classOf, hfun, if_neg Bool.false_ne_true, if_neg]
  cases hx : x.toList with
  | nil => exact Bool.false_ne_true
  | cons c cs =>
    rw [hx] at h
    rw [List.head?_cons, Option.any_some, not_isDigit_of_isLetter (h c List.mem_cons_self)]
    exact Bool.false_ne_true

end Classes

section Parts

def spelled (factor : List Char) : List Char :=
  ((irrationalDecimal? factor).map String.toList).getD factor

def isComposite (w : List Char) : Bool :=
  !(w.all fun c => c.isDigit || c == '.') && !w.all isLetter

def parts (w : List Char) : List (List Char) :=
  if isComposite w then ((factors? 0 w).getD []).map spelled else [w]

def written (w : List Char) : List Char := ['*'].intercalate (parts w)

theorem parts_of_not_composite (h : isComposite w = false) : parts w = [w] := by
  rw [parts, h, if_neg Bool.false_ne_true]

theorem parts_of_factors {fs : List (List Char)} (h : isComposite w = true)
    (hf : factors? 0 w = some fs) : parts w = fs.map spelled := by
  rw [parts, if_pos h, hf, Option.getD_some]

theorem Atom.not_composite (h : Atom w) : isComposite w = false := by
  unfold isComposite
  cases h with
  | numeral h => rw [List.all_eq_true.mpr h.isNumeralChar, Bool.not_true, Bool.false_and]
  | word _ h => rw [List.all_eq_true.mpr h, Bool.not_true, Bool.and_false]

/-- An atom, or a composite that falls into factors. -/
inductive Admitted (w : List Char) : Prop where
  | atom (atom : Atom w)
  | composite {fs : List (List Char)} (composite : isComposite w = true)
      (factors : factors? 0 w = some fs)

theorem Admitted.tight (h : Admitted w) : Tight w := by
  cases h with
  | atom h => exact h.tight
  | composite _ h =>
    obtain ⟨hflat, hall⟩ := factors?_spec h
    rw [List.drop_zero] at hflat
    rw [hflat]
    exact tight_flatten fun f hf => (hall f hf).tight

theorem numeral_of_irrationalDecimal? {decimal : String}
    (h : irrationalDecimal? factor = some decimal) : Numeral decimal.toList := by
  have hall : ∀ entry ∈ irrationals, isNumeral entry.2.toList = true := by decide +kernel
  unfold irrationalDecimal? at h
  split at h
  · next c =>
    obtain ⟨front, back, heq, -⟩ := List.lookup_eq_some_iff.mp h
    exact numeral_of_isNumeral (hall (c, decimal) (by rw [heq]; simp))
  · cases h

theorem Factor.of_no_decimal (h : Factor factor) (hd : irrationalDecimal? factor = none) :
    Numeral factor ∨ ∃ c, factor = [c] ∧ isLetter c = true := by
  cases h with
  | numeral h => exact .inl h
  | letter h => exact .inr ⟨_, rfl, h⟩
  | symbol h =>
    obtain ⟨entry, hm, heq⟩ := List.any_eq_true.mp h
    have hne := List.lookup_eq_none_iff.mp hd entry hm
    rw [beq_iff_eq.mp heq, bne_self_eq_false] at hne
    cases hne

theorem Factor.atom_spelled (h : Factor factor) : Atom (spelled factor) := by
  unfold spelled
  cases hd : irrationalDecimal? factor with
  | some decimal => exact .numeral (numeral_of_irrationalDecimal? hd)
  | none =>
    rcases h.of_no_decimal hd with hnum | ⟨c, rfl, hletter⟩
    · exact .numeral hnum
    · exact .word (List.cons_ne_nil _ _) (List.forall_mem_singleton.mpr hletter)

theorem Admitted.atom_of_mem_parts (h : Admitted w) {v : List Char} (hv : v ∈ parts w) :
    Atom v := by
  cases h with
  | atom h =>
    rw [parts_of_not_composite h.not_composite, List.mem_singleton] at hv
    rw [hv]
    exact h
  | composite hc hf =>
    rw [parts_of_factors hc hf] at hv
    obtain ⟨f, hfm, rfl⟩ := List.mem_map.mp hv
    exact ((factors?_spec hf).2 f hfm).atom_spelled

theorem runs_written (h : Admitted w) : runs d (written w) = parts w :=
  runs_intercalate (isSeparator_of_mem (by decide)) fun _ hv =>
    have hatom := h.atom_of_mem_parts hv
    ⟨hatom.tight.solid, hatom.ne_nil⟩

theorem written_of_not_composite (h : isComposite w = false) : written w = w := by
  rw [written, parts_of_not_composite h, List.intercalate_singleton]

end Parts

section Entering

variable {p' : Plain} {e : String} {r : Reading}

theorem addFactor_eq (h : Factor factor) :
    p.addFactor factor = (p.file d (String.ofList (spelled factor)), spelled factor) := by
  unfold addFactor spelled
  cases hd : irrationalDecimal? factor with
  | some decimal =>
    have hclass : classOf d decimal = .constant :=
      classOf_numeral (numeral_of_irrationalDecimal? hd)
    simp [file, hclass]
  | none =>
    rcases h.of_no_decimal hd with hnum | ⟨c, rfl, hletter⟩
    · obtain ⟨c, hc, hdigit⟩ := hnum.head
      have hclass : classOf d (String.ofList factor) = .constant :=
        classOf_numeral (by rwa [String.toList_ofList])
      have hhead : factor.head?.any Char.isDigit = true := by
        rw [Option.mem_def.mp hc]
        exact hdigit
      simp [file, hclass, hhead]
    · have hfun : isFunction d (String.ofList [c]) = false := by
        refine Bool.eq_false_iff.mpr fun hfun => ?_
        have hlen := (letters_of_isFunction hfun).1
        rw [String.toList_ofList] at hlen
        exact absurd hlen (by simp)
      have hclass : classOf d (String.ofList [c]) = .unknown :=
        classOf_word hfun (by rwa [String.toList_ofList, List.forall_mem_singleton])
      rw [Option.map_none, Option.getD_none, file, hclass, List.head?_cons, Option.any_some,
        not_isDigit_of_isLetter hletter]
      rfl

theorem addFactors_eq {fs : List (List Char)} (h : ∀ f ∈ fs, Factor f) :
    p.addFactors fs =
      (((fs.map spelled).map String.ofList).foldl (file d) p, fs.map spelled) := by
  induction fs generalizing p with
  | nil => rfl
  | cons f fs ih =>
    obtain ⟨hf, hfs⟩ := List.forall_mem_cons.mp h
    rw [addFactors, addFactor_eq (d := d) hf]
    dsimp only
    rw [ih hfs]
    rfl

structure Asked (r : Reading) (called : Bool) (e : String) : Prop where
  called : isFunction r.dialect e = true → called = true
  single : isFunction r.dialect e = false → (∀ c ∈ e.toList, isLetter c = true) →
    e.toList.length = 1 ∨ r.algebraic = true
  composite : isComposite e.toList = true → r.algebraic = true

/-- An element that is entered: an atom, or a composite that is split. -/
theorem enter_ok (h : enter r p e = .ok p') : Asked r (p.isCalled e) e ∧
    (Atom e.toList ∧ p' = p.file r.dialect e ∨
      ∃ fs, isComposite e.toList = true ∧ factors? 0 e.toList = some fs ∧
        p' = p.splitComposite e fs) := by
  have atomic : Atom e.toList → isComposite e.toList = true → r.algebraic = true := by
    intro hatom hc
    rw [hatom.not_composite] at hc
    cases hc
  unfold enter at h
  dsimp only at h
  split at h
  · next hfun =>
    obtain ⟨hlen, hletters⟩ := letters_of_isFunction hfun
    have hatom : Atom e.toList := .word (List.ne_nil_of_length_pos (by omega)) hletters
    split at h
    · next hcalled =>
      cases h
      refine ⟨⟨fun _ => hcalled, fun hnot => absurd hfun (Bool.eq_false_iff.mp hnot),
        atomic hatom⟩, .inl ⟨hatom, ?_⟩⟩
      rw [file, classOf, if_pos hfun]
    · cases h
  · next hfun =>
    split at h
    · split at h
      · next hnum =>
        cases h
        have hnum := numeral_of_isNumeral hnum
        refine ⟨⟨fun h => absurd h hfun, fun _ hletters => ?_, atomic (.numeral hnum)⟩,
          .inl ⟨.numeral hnum, by rw [file, classOf_numeral hnum]⟩⟩
        obtain ⟨c, hc, hdigit⟩ := hnum.head
        rw [not_isDigit_of_isLetter (hletters c (List.mem_of_mem_head? hc))] at hdigit
        cases hdigit
      · cases h
    · next hnum =>
      split at h
      · next hletters =>
        have hletters' := List.all_eq_true.mp hletters
        have hatom : Atom e.toList := by
          refine .word (fun hnil => ?_) hletters'
          rw [hnil] at hnum
          exact hnum rfl
        split at h
        · next hone =>
          cases h
          refine ⟨⟨fun h => absurd h hfun, fun _ _ => by simpa using hone, atomic hatom⟩,
            .inl ⟨hatom, ?_⟩⟩
          rw [file, classOf_word (Bool.eq_false_iff.mpr hfun) hletters']
        · split at h <;> cases h
      · next hletters =>
        have hcomposite : isComposite e.toList = true := by
          rw [isComposite, Bool.eq_false_iff.mpr hnum, Bool.eq_false_iff.mpr hletters]
          rfl
        split at h
        · cases h
        · split at h
          · cases h
          · next halg =>
            split at h
            · cases h
            · next fs hfs =>
              cases h
              exact ⟨⟨fun h => absurd h hfun,
                fun _ hall => absurd (List.all_eq_true.mpr hall) hletters,
                fun _ => by simpa using halg⟩, .inr ⟨fs, hcomposite, hfs, rfl⟩⟩

structure Entered (d : Dialect) (e : String) (p p' : Plain) : Prop where
  admitted : Admitted e.toList
  text : p'.text.toList = if isComposite e.toList
    then replaceAlone e.toList (written e.toList) p.text.toList else p.text.toList
  members : ∀ k y, y ∈ p'.members k ↔
    y ∈ p.members k ∨ y.toList ∈ parts e.toList ∧ classOf d y = k
  composites : ∀ y, y ∈ p'.composites ↔ y ∈ p.composites ∨ y = e ∧ isComposite y.toList = true

theorem entered_of_enter (h : enter r p e = .ok p') : Entered r.dialect e p p' := by
  obtain ⟨-, ⟨hatom, rfl⟩ | ⟨fs, hc, hfs, rfl⟩⟩ := enter_ok h
  · have hnot := hatom.not_composite
    refine ⟨.atom hatom, ?_, fun k y => ?_, fun y => ?_⟩
    · rw [hnot, if_neg Bool.false_ne_true, text_file]
    · rw [mem_file, parts_of_not_composite hnot, List.mem_singleton, String.toList_inj]
    · rw [composites_file]
      refine ⟨.inl, ?_⟩
      rintro (hy | ⟨rfl, hy⟩)
      · exact hy
      · rw [hnot] at hy
        cases hy
  · have hparts := parts_of_factors hc hfs
    have hfactors := addFactors_eq (d := r.dialect) (p := p) (factors?_spec hfs).2
    rw [← hparts] at hfactors
    unfold splitComposite
    rw [hfactors]
    refine ⟨.composite hc hfs, ?_, fun k y => ?_, fun y => ?_⟩
    · rw [if_pos hc, String.toList_ofList, text_foldl_file]
      rfl
    · have hmem : ∀ q : Plain, ∀ t s, ({ q with text := t, composites := s } : Plain).members k =
          q.members k := by
        intro q t s
        cases k <;> rfl
      rw [hmem, mem_foldl_file]
      have hy : y ∈ (parts e.toList).map String.ofList ↔ y.toList ∈ parts e.toList := by
        rw [List.mem_map]
        constructor
        · rintro ⟨v, hv, rfl⟩
          rwa [String.toList_ofList]
        · intro hv
          exact ⟨_, hv, String.ofList_toList⟩
      rw [hy]
    · dsimp only
      rw [composites_foldl_file, SortedSet.mem_insert]
      constructor
      · rintro (rfl | hy)
        · exact .inr ⟨rfl, hc⟩
        · exact .inl hy
      · rintro (hy | ⟨rfl, -⟩)
        · exact .inr hy
        · exact .inl rfl

end Entering

section Progress

variable {start : List Char} {done : List String} {p' : Plain} {e : String}
  {r : Reading} {es : List String}

def rewritten (done : List String) (w : List Char) : List Char :=
  if String.ofList w ∈ done then written w else w

/-- A formula part of whose elements are entered. -/
structure Progress (d : Dialect) (start : List Char) (done : List String) (p : Plain) : Prop where
  text : p.text.toList = mapRuns d (rewritten done) start
  members : ∀ k y, y ∈ p.members k ↔ ∃ e ∈ done, y.toList ∈ parts e.toList ∧ classOf d y = k
  composites : ∀ y, y ∈ p.composites ↔ y ∈ done ∧ isComposite y.toList = true

theorem rewritten_nil : rewritten done [] = [] := by
  unfold rewritten
  split
  · rfl
  · rfl

theorem tight_of_mem_runs_rewritten (hall : ∀ w ∈ runs d start, Admitted w)
    (hw : w ∈ runs d (mapRuns d (rewritten done) start)) : Tight w := by
  rw [runs_mapRuns rewritten_nil, List.mem_flatMap] at hw
  obtain ⟨v, hv, hw⟩ := hw
  unfold rewritten at hw
  split at hw
  · rw [runs_written (hall v hv)] at hw
    exact ((hall v hv).atom_of_mem_parts hw).tight
  · obtain ⟨hsolid, hne⟩ := of_mem_runs hv
    rw [runs_solid hsolid hne, List.mem_singleton] at hw
    rw [hw]
    exact (hall v hv).tight

/-- Splitting one more composite leaves what was written before as it is. -/
theorem replaceAlone_rewritten (hall : ∀ w ∈ runs d start, Admitted w)
    (he : Admitted e.toList) (hc : isComposite e.toList = true) :
    replaceAlone e.toList (written e.toList) (mapRuns d (rewritten done) start) =
      mapRuns d (rewritten (done ++ [e])) start := by
  have hne : e.toList ≠ [] := by
    intro hnil
    rw [hnil] at hc
    cases hc
  rw [replaceAlone_eq_mapRuns he.tight.solid he.tight hne fun w =>
    tight_of_mem_runs_rewritten hall, mapRuns_mapRuns]
  refine mapRuns_congr ?_ fun w hw => ?_
  · rw [rewritten_nil, rewritten_nil, mapRuns_solid solid_nil, if_neg hne.symm]
  · obtain ⟨hsolid, -⟩ := of_mem_runs hw
    have hmem : String.ofList w ∈ done ++ [e] ↔ String.ofList w ∈ done ∨ w = e.toList := by
      rw [List.mem_append, List.mem_singleton, ← String.toList_inj, String.toList_ofList]
    unfold rewritten
    by_cases hdone : String.ofList w ∈ done
    · rw [if_pos hdone, if_pos (hmem.mpr (.inl hdone))]
      refine mapRuns_intercalate (isSeparator_of_mem (by decide)) (if_neg hne.symm) fun v hv => ?_
      have hatom := (hall w hw).atom_of_mem_parts hv
      refine ⟨hatom.tight.solid, if_neg ?_⟩
      rintro rfl
      rw [hatom.not_composite] at hc
      cases hc
    · rw [if_neg hdone, mapRuns_solid hsolid]
      by_cases heq : w = e.toList
      · rw [if_pos heq, if_pos (hmem.mpr (.inr heq)), heq]
      · rw [if_neg heq, if_neg fun h => (hmem.mp h).elim hdone heq]

theorem rewritten_of_not_composite (hc : isComposite e.toList = false) :
    rewritten (done ++ [e]) = rewritten done := by
  funext w
  unfold rewritten
  by_cases heq : String.ofList w = e
  · rw [← heq, String.toList_ofList] at hc
    rw [written_of_not_composite hc]
    simp
  · simp [heq]

theorem Progress.entered (hall : ∀ w ∈ runs d start, Admitted w) (hp : Progress d start done p)
    (h : Entered d e p p') : Progress d start (done ++ [e]) p' where
  text := by
    rw [h.text, hp.text]
    cases hc : isComposite e.toList with
    | true => rw [if_pos rfl, replaceAlone_rewritten hall h.admitted hc]
    | false => rw [if_neg Bool.false_ne_true, rewritten_of_not_composite hc]
  members k y := by
    rw [h.members, hp.members]
    constructor
    · rintro (⟨e', he', hy⟩ | hy)
      · exact ⟨e', List.mem_append_left _ he', hy⟩
      · exact ⟨e, by simp, hy⟩
    · rintro ⟨e', he', hy⟩
      rcases List.mem_append.mp he' with he' | he'
      · exact .inl ⟨e', he', hy⟩
      · rw [List.mem_singleton.mp he'] at hy
        exact .inr hy
  composites y := by
    rw [h.composites, hp.composites, List.mem_append, List.mem_singleton]
    tauto

theorem Progress.all (hall : ∀ w ∈ runs r.dialect start, Admitted w)
    (hp : Progress r.dialect start done p) (h : es.foldlM (enter r) p = .ok p') :
    Progress r.dialect start (done ++ es) p' := by
  induction es generalizing done p with
  | nil =>
    cases h
    rwa [List.append_nil]
  | cons e es ih =>
    rw [List.foldlM_cons] at h
    cases he : enter r p e with
    | error fault =>
      rw [he] at h
      cases h
    | ok q =>
      rw [he] at h
      have := ih (hp.entered hall (entered_of_enter he)) h
      rwa [List.append_assoc] at this

theorem admitted_of_foldlM (h : es.foldlM (enter r) p = .ok p') : ∀ e ∈ es, Admitted e.toList := by
  induction es generalizing p with
  | nil => exact fun e he => by cases he
  | cons e es ih =>
    rw [List.foldlM_cons] at h
    cases he : enter r p e with
    | error fault =>
      rw [he] at h
      cases h
    | ok q =>
      rw [he] at h
      exact List.forall_mem_cons.mpr ⟨(entered_of_enter he).admitted, ih h⟩

end Progress

section Finished

variable {r : Reading} {raw : String} {plain : Plain}

theorem mem_elements_prepare {e : String} :
    e ∈ (prepare r raw).2 ↔ e.toList ∈ runs r.dialect (prepare r raw).1 := by
  unfold prepare
  dsimp only
  rw [runs_insertProducts, mem_elements]

def begin (text : List Char) : Plain := ⟨String.ofList text, [], [], [], []⟩

theorem Progress.begin (d : Dialect) (text : List Char) : Progress d text [] (begin text) := by
  refine ⟨?_, fun k y => ?_, fun y => ?_⟩
  · have hid : rewritten [] = id := by
      funext w
      exact if_neg List.not_mem_nil
    rw [Plain.begin, String.toList_ofList, hid, mapRuns_id]
  · cases k <;> simp [Plain.members, Plain.begin]
  · simp [Plain.begin]

/-- A text is made plain when its elements can be entered and what is left has
only characters that may stand. -/
theorem ofRaw_eq_ok_iff : ofRaw r raw = .ok plain ↔
    (prepare r raw).2.foldlM (enter r) (begin (prepare r raw).1) = .ok plain ∧
      ∀ c ∈ plain.text.toList, isAllowed r.dialect c = true := by
  have hfind : ∀ {p : Plain}, p.text.toList.find? (!isAllowed r.dialect ·) = none ↔
      ∀ c ∈ p.text.toList, isAllowed r.dialect c = true := by
    simp
  simp only [ofRaw, bind, Except.bind]
  rw [show ⟨String.ofList (prepare r raw).1, [], [], [], []⟩ = begin (prepare r raw).1 from rfl]
  cases hfold : (prepare r raw).2.foldlM (enter r) (begin (prepare r raw).1) with
  | error fault => simp
  | ok p =>
    dsimp only
    cases hc : p.text.toList.find? (!isAllowed r.dialect ·) with
    | none =>
      refine ⟨fun h => ?_, fun h => h.1⟩
      cases h
      exact ⟨rfl, hfind.mp hc⟩
    | some c =>
      refine iff_of_false (fun h => by cases h) fun ⟨heq, hall⟩ => ?_
      cases heq
      rw [hfind.mpr hall] at hc
      cases hc
variable (h : ofRaw r raw = .ok plain)
include h

theorem ofRaw_ok :
    (∀ w ∈ runs r.dialect (prepare r raw).1, Admitted w) ∧
      Progress r.dialect (prepare r raw).1 (prepare r raw).2 plain := by
  obtain ⟨hfold, -⟩ := ofRaw_eq_ok_iff.mp h
  have hall : ∀ w ∈ runs r.dialect (prepare r raw).1, Admitted w := by
    intro w hw
    have := admitted_of_foldlM hfold (String.ofList w) (mem_elements_prepare.mpr (by
      rwa [String.toList_ofList]))
    rwa [String.toList_ofList] at this
  have hend := (Progress.begin r.dialect _).all hall hfold
  exact ⟨hall, by rwa [List.nil_append] at hend⟩

/-- The text that is left: every run of the prepared text written out. -/
theorem text_of_ofRaw : plain.text.toList = mapRuns r.dialect written (prepare r raw).1 := by
  rw [(ofRaw_ok h).2.text]
  refine mapRuns_congr rewritten_nil fun w hw => if_pos ?_
  exact mem_elements_prepare.mpr (by rwa [String.toList_ofList])

theorem runs_of_ofRaw :
    runs r.dialect plain.text.toList = (runs r.dialect (prepare r raw).1).flatMap parts := by
  rw [text_of_ofRaw h, runs_mapRuns rfl]
  exact List.flatMap_congr fun w hw => runs_written ((ofRaw_ok h).1 w hw)

theorem atom_of_mem_runs (hw : w ∈ runs r.dialect plain.text.toList) : Atom w := by
  rw [runs_of_ofRaw h, List.mem_flatMap] at hw
  obtain ⟨v, hv, hw⟩ := hw
  exact ((ofRaw_ok h).1 v hv).atom_of_mem_parts hw

/-- The members of a class are the runs of that class. -/
theorem mem_members_iff {k : Class} :
    x ∈ plain.members k ↔
      x.toList ∈ runs r.dialect plain.text.toList ∧ classOf r.dialect x = k := by
  rw [(ofRaw_ok h).2.members, runs_of_ofRaw h, List.mem_flatMap]
  constructor
  · rintro ⟨e, he, hx, hk⟩
    exact ⟨⟨e.toList, mem_elements_prepare.mp he, hx⟩, hk⟩
  · rintro ⟨⟨w, hw, hx⟩, hk⟩
    refine ⟨String.ofList w, mem_elements_prepare.mpr ?_, ?_, hk⟩ <;> rwa [String.toList_ofList]

end Finished

end Plain

end FormulaGraph
