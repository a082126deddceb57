import FormulaGraph.Proofs.Formula.Elements
import FormulaGraph.Proofs.Formula.Leaves

/-!
Plain formulas and their terms. When every run of a text is an atom, its runs
are the leaves of its lexemes. So the names of a term are the unknowns of the
plain formula it is read from, and perhaps names of functions.
-/

namespace FormulaGraph.Plain

open Text FormulaGraph.Symbol

variable {d : Dialect} {c : Char} {w rest text : List Char} {lexemes : List Lexeme}

section Lexemes

def lexemeOf (w : List Char) : Lexeme :=
  if w.head?.any Char.isDigit then .numeral (String.ofList w) else .name (String.ofList w)

theorem isLeaf_lexemeOf (w : List Char) : (lexemeOf w).isLeaf = true := by
  unfold lexemeOf
  split <;> rfl

theorem isSeparator_vector : isSeparator .vector c = true ↔ c ∈ separators ++ brackets := by
  rw [isSeparator, Bool.or_eq_true, Bool.and_eq_true, List.contains_iff_mem, List.contains_iff_mem,
    List.mem_append]
  exact or_congr_right (and_iff_right rfl)

theorem separator_of_sign? {found : Lexeme × Nat} (h : Lexeme.sign? (c :: rest) = some found) :
    isSeparator .vector c = true := by
  rw [isSeparator_vector]
  unfold Lexeme.sign? at h
  split at h
  case h_13 => cases h
  all_goals
    next heq =>
      rw [(List.cons.inj heq).1]
      decide

/-- A separator is read as a sign, perhaps with the separator after it. -/
theorem sign?_of_isSeparator (hc : isSeparator d c = true) (rest : List Char) :
    ∃ l k, Lexeme.sign? (c :: rest) = some (l, k + 1) ∧ l.isLeaf = false ∧
      ∀ x ∈ rest.take k, isSeparator d x = true := by
  have hmem : c ∈ separators ++ brackets := by
    rw [isSeparator, Bool.or_eq_true, Bool.and_eq_true, List.contains_iff_mem,
      List.contains_iff_mem] at hc
    exact List.mem_append.mpr (hc.imp_right And.right)
  have hdouble : ∀ s, s ∈ separators → rest.head? = some s →
      ∀ x ∈ rest.take 1, isSeparator d x = true := by
    intro s hs hhead x hx
    obtain ⟨tail, rfl⟩ := List.head?_eq_some_iff.mp hhead
    rw [List.mem_singleton.mp hx]
    exact isSeparator_of_mem hs
  have hnone : ∀ x ∈ rest.take 0, isSeparator d x = true := fun x hx => by cases hx
  simp only [separators, brackets, List.cons_append, List.nil_append, List.mem_cons,
    List.not_mem_nil, or_false] at hmem
  rcases hmem with rfl | rfl | rfl | rfl | rfl | rfl | rfl | rfl | rfl | rfl
  · by_cases hhead : rest.head? = some '/'
    · refine ⟨.op .floorDiv, 1, ?_, rfl, hdouble '/' (by decide) hhead⟩
      obtain ⟨tail, rfl⟩ := List.head?_eq_some_iff.mp hhead
      rfl
    · refine ⟨.op .div, 0, ?_, rfl, hnone⟩
      cases rest with
      | nil => rfl
      | cons x xs =>
        have hx : x ≠ '/' := by simpa using hhead
        simp [Lexeme.sign?, hx]
  · by_cases hhead : rest.head? = some '*'
    · refine ⟨.op .pow, 1, ?_, rfl, hdouble '*' (by decide) hhead⟩
      obtain ⟨tail, rfl⟩ := List.head?_eq_some_iff.mp hhead
      rfl
    · refine ⟨.op .mul, 0, ?_, rfl, hnone⟩
      cases rest with
      | nil => rfl
      | cons x xs =>
        have hx : x ≠ '*' := by simpa using hhead
        simp [Lexeme.sign?, hx]
  all_goals exact ⟨_, 0, rfl, rfl, hnone⟩

theorem takeWhile_of_longest {q : Char → Bool} (hw : ∀ c ∈ w, q c = true)
    (hrest : ∀ c ∈ rest.head?, q c = false) : (w ++ rest).takeWhile q = w := by
  have hstop : rest.takeWhile q = [] := by
    cases rest with
    | nil => rfl
    | cons c rest => rw [List.takeWhile_cons, hrest c rfl, if_neg Bool.false_ne_true]
  rw [List.takeWhile_append_of_pos hw, hstop, List.append_nil]

theorem not_isNumeralChar_of_isSeparator (h : isSeparator d c = true) :
    Lexeme.isNumeralChar c = false := by
  obtain ⟨hword, hpoint⟩ := of_isSeparator h
  refine Bool.eq_false_iff.mpr fun hc => ?_
  rcases Bool.or_eq_true _ _ ▸ hc with hc | hc
  · rw [isWordChar_of_isDigit hc] at hword
    cases hword
  · exact hpoint (beq_iff_eq.mp hc)

theorem isWordChar_of_isNameChar (h : Lexeme.isNameChar c = true) : isWordChar c = true := by
  change ((isLetter c || c.isDigit) || c == '_') = true at h
  rw [Bool.or_eq_true, Bool.or_eq_true] at h
  rcases h with (h | h) | h
  · exact isWordChar_of_isLetter h
  · exact isWordChar_of_isDigit h
  · rw [isWordChar, h, Bool.or_true]

theorem not_isNameChar_of_isSeparator (h : isSeparator d c = true) :
    Lexeme.isNameChar c = false := by
  refine Bool.eq_false_iff.mpr fun hc => ?_
  have hword := isWordChar_of_isNameChar hc
  rw [(of_isSeparator h).1] at hword
  cases hword

/-- An atom before a separator is one lexeme. -/
theorem first?_atom (hw : Atom w) (hr : Severed d rest) {found : Lexeme × Nat}
    (h : Lexeme.first? (w ++ rest) = some found) : found = (lexemeOf w, w.length) := by
  obtain ⟨c, cs, rfl⟩ := List.exists_cons_of_ne_nil hw.ne_nil
  have hsign : Lexeme.sign? (c :: cs ++ rest) = none := by
    cases hs : Lexeme.sign? (c :: cs ++ rest) with
    | none => rfl
    | some found =>
      have hword := hw.tight.word_head
      rw [(of_isSeparator (separator_of_sign? hs)).1] at hword
      cases hword
  unfold Lexeme.first? at h
  rw [hsign] at h
  dsimp only [List.cons_append] at h
  rw [← List.cons_append] at h
  cases hw with
  | numeral hnum =>
    have hchars : ∀ b ∈ c :: cs, Lexeme.isNumeralChar b = true := hnum.isNumeralChar
    have hdigit : (c :: cs).head?.any Char.isDigit = true := by
      obtain ⟨b, hb, hdigit⟩ := hnum.head
      rw [Option.mem_def.mp hb]
      exact hdigit
    rw [if_pos (hchars c List.mem_cons_self),
      takeWhile_of_longest hchars fun c hc => not_isNumeralChar_of_isSeparator (hr c hc)] at h
    split at h
    · cases h
      rw [lexemeOf, if_pos hdigit]
    · cases h
  | word _ hletters =>
    have hletter := hletters c List.mem_cons_self
    have hdigit := not_isDigit_of_isLetter hletter
    have hnumeral : Lexeme.isNumeralChar c = false := by
      refine Bool.eq_false_iff.mpr fun hc => ?_
      rw [Lexeme.isNumeralChar, hdigit, Bool.false_or, beq_iff_eq] at hc
      rw [hc] at hletter
      exact absurd hletter (by decide)
    have hstart : Lexeme.isNameStart c = true := by
      rw [Lexeme.isNameStart, show c.isAlpha = true from hletter, Bool.true_or]
    have hchars : ∀ b ∈ c :: cs, Lexeme.isNameChar b = true := by
      intro b hb
      change ((isLetter b || b.isDigit) || b == '_') = true
      rw [hletters b hb, Bool.true_or, Bool.true_or]
    rw [hnumeral, if_neg Bool.false_ne_true, if_pos hstart,
      takeWhile_of_longest hchars fun c hc => not_isNameChar_of_isSeparator (hr c hc)] at h
    cases h
    rw [lexemeOf, List.head?_cons, Option.any_some, hdigit, if_neg Bool.false_ne_true]

theorem scan_skip (u rest : List Char) : Lexeme.scan u.length (u ++ rest) = Lexeme.scan 0 rest := by
  induction u with
  | nil => rfl
  | cons c cs ih => exact ih

theorem scan_cons (hb : (c == ' ' || c == '\t') = false)
    (h : Lexeme.scan 0 (c :: rest) = some lexemes) :
    ∃ l n more, Lexeme.first? (c :: rest) = some (l, n) ∧ Lexeme.scan (n - 1) rest = some more ∧
      lexemes = l :: more := by
  rw [Lexeme.scan, hb, if_neg Bool.false_ne_true] at h
  split at h
  · cases h
  · next l n hfirst =>
    obtain ⟨more, hmore, rfl⟩ := Option.map_eq_some_iff.mp h
    exact ⟨l, n, more, hfirst, hmore, rfl⟩

theorem scan_atom (hw : Atom w) (hr : Severed d rest)
    (h : Lexeme.scan 0 (w ++ rest) = some lexemes) :
    ∃ more, Lexeme.scan 0 rest = some more ∧ lexemes = lexemeOf w :: more := by
  obtain ⟨c, cs, rfl⟩ := List.exists_cons_of_ne_nil hw.ne_nil
  have hblank : (c == ' ' || c == '\t') = false := by
    refine Bool.eq_false_iff.mpr fun hb => ?_
    have hword := hw.tight.word_head
    rw [Bool.or_eq_true, beq_iff_eq, beq_iff_eq] at hb
    rcases hb with rfl | rfl <;> exact absurd hword (by decide +kernel)
  rw [List.cons_append] at h
  obtain ⟨l, n, more, hfirst, hmore, rfl⟩ := scan_cons hblank h
  rw [← List.cons_append] at hfirst
  obtain ⟨rfl, rfl⟩ := Prod.mk.inj (first?_atom hw hr hfirst)
  rw [List.length_cons, Nat.add_sub_cancel, scan_skip] at hmore
  exact ⟨more, hmore, rfl⟩

theorem scan_separator (hc : isSeparator d c = true)
    (h : Lexeme.scan 0 (c :: rest) = some lexemes) :
    ∃ l k more, l.isLeaf = false ∧ (∀ x ∈ rest.take k, isSeparator d x = true) ∧
      Lexeme.scan k rest = some more ∧ lexemes = l :: more := by
  have hblank : (c == ' ' || c == '\t') = false := by
    refine Bool.eq_false_iff.mpr fun hb => ?_
    rw [Bool.or_eq_true, beq_iff_eq, beq_iff_eq] at hb
    rcases hb with rfl | rfl <;> cases d <;> exact absurd hc (by decide)
  obtain ⟨l, n, more, hfirst, hmore, rfl⟩ := scan_cons hblank h
  obtain ⟨l', k, hsign, hleaf, hk⟩ := sign?_of_isSeparator hc rest
  unfold Lexeme.first? at hfirst
  rw [hsign] at hfirst
  cases hfirst
  exact ⟨l, k, more, hleaf, hk, hmore, rfl⟩

/-- The runs of a text are the leaves among its lexemes, if they are atoms.
Separators that stand first may be skipped. -/
theorem leaves_scan {skip : Nat} (hskip : ∀ x ∈ text.take skip, isSeparator d x = true)
    (hruns : ∀ w ∈ runs d text, Atom w) (h : Lexeme.scan skip text = some lexemes) :
    Lexeme.leaves lexemes = (runs d text).map lexemeOf := by
  have unskipped : ∀ {w rest : List Char} {skip : Nat}, Solid d w → w ≠ [] →
      (∀ x ∈ (w ++ rest).take skip, isSeparator d x = true) → skip = 0 := by
    intro w rest skip hw hne hskip
    obtain ⟨c, cs, rfl⟩ := List.exists_cons_of_ne_nil hne
    cases skip with
    | zero => rfl
    | succ skip =>
      have hc := hskip c List.mem_cons_self
      rw [hw c List.mem_cons_self] at hc
      cases hc
  induction text using runs_induction d generalizing skip lexemes with
  | solid w hw =>
    by_cases hne : w = []
    · rw [hne, Lexeme.scan] at h
      cases h
      rw [hne]
      rfl
    · have hatom := hruns w (by rw [runs_solid hw hne]; simp)
      rw [← List.append_nil w] at hskip h
      rw [unskipped hw hne hskip] at h
      have hend : Severed d [] := fun c hc => by cases hc
      obtain ⟨more, hmore, rfl⟩ := scan_atom hatom hend h
      cases hmore
      rw [runs_solid hw hne, Lexeme.leaves_cons, isLeaf_lexemeOf]
      rfl
  | cut w c rest hw hc ih =>
    rw [runs_cut hc] at hruns ⊢
    have ih : ∀ {skip lexemes}, (∀ x ∈ rest.take skip, isSeparator d x = true) →
        Lexeme.scan skip rest = some lexemes →
          Lexeme.leaves lexemes = (runs d rest).map lexemeOf :=
      fun hskip hs => ih hskip (fun w hw => hruns w (List.mem_append_right _ hw)) hs
    -- The separator is read by itself or with the one after it.
    have separator : ∀ {lexemes}, Lexeme.scan 0 (c :: rest) = some lexemes →
        Lexeme.leaves lexemes = (runs d rest).map lexemeOf := by
      intro lexemes hs
      obtain ⟨l, k, more, hleaf, hk, hmore, rfl⟩ := scan_separator hc hs
      rw [Lexeme.leaves_cons, hleaf, if_neg Bool.false_ne_true, ih hk hmore]
    by_cases hne : w = []
    · subst hne
      cases skip with
      | zero => exact separator h
      | succ skip => exact ih (fun x hx => hskip x (List.mem_cons_of_mem _ hx)) h
    · have hatom := hruns w (List.mem_append_left _ (by rw [runs_solid hw hne]; simp))
      rw [unskipped hw hne hskip] at h
      have hend : Severed d (c :: rest) := fun b hb => by cases hb; exact hc
      obtain ⟨more, hmore, rfl⟩ := scan_atom hatom hend h
      rw [Lexeme.leaves_cons, isLeaf_lexemeOf, if_pos rfl, separator hmore, runs_solid hw hne]
      rfl

end Lexemes

section Names

variable {r : Reading} {raw n : String} {plain : Plain} {term : Term}

theorem name_mem_map_lexemeOf : .name n ∈ (runs d text).map lexemeOf ↔
    n.toList ∈ runs d text ∧ n.toList.head?.any Char.isDigit = false := by
  rw [List.mem_map]
  constructor
  · rintro ⟨w, hw, heq⟩
    unfold lexemeOf at heq
    split at heq
    · cases heq
    · next hdigit =>
      cases heq
      rw [String.toList_ofList]
      exact ⟨hw, Bool.eq_false_iff.mpr hdigit⟩
  · rintro ⟨hw, hdigit⟩
    refine ⟨_, hw, ?_⟩
    rw [lexemeOf, hdigit, if_neg Bool.false_ne_true, String.ofList_toList]

theorem leaves_of_ofRaw (h : ofRaw r raw = .ok plain) {surface : Surface}
    (hs : Surface.ofText? plain.text = some surface) :
    surface.leaves = (runs r.dialect plain.text.toList).map lexemeOf := by
  obtain ⟨lexemes, hl, hleaves⟩ := Surface.leaves_of_ofText? hs
  rw [hleaves]
  exact leaves_scan (fun x hx => by cases hx) (fun w hw => atom_of_mem_runs h hw) hl

theorem classOf_eq_unknown : classOf d n = .unknown ↔
    isFunction d n = false ∧ n.toList.head?.any Char.isDigit = false := by
  unfold classOf
  cases isFunction d n <;> cases n.toList.head?.any Char.isDigit <;> simp

theorem mem_names_of_unknown (h : ofRaw r raw = .ok plain)
    (ht : Term.ofText r.dialect plain.text = .ok term) (hn : n ∈ plain.unknowns) :
    n ∈ term.names := by
  obtain ⟨surface, hs, ht⟩ := Term.ofText_ok ht
  obtain ⟨hrun, hclass⟩ := (mem_members_iff (k := .unknown) h).mp hn
  obtain ⟨hfun, hdigit⟩ := classOf_eq_unknown.mp hclass
  have hleaf : .name n ∈ surface.leaves := by
    rw [leaves_of_ofRaw h hs]
    exact name_mem_map_lexemeOf.mpr ⟨hrun, hdigit⟩
  rcases (Term.name_mem_leaves ht).2 hleaf with hmem | hfun'
  · exact Term.mem_names.mpr hmem
  · rw [isFunction, hfun'] at hfun
    cases hfun

/-- Names of the term are unknowns, or functions that stand bare. -/
theorem classified_of_mem_names (h : ofRaw r raw = .ok plain)
    (ht : Term.ofText r.dialect plain.text = .ok term) (hn : n ∈ term.names) :
    n ∈ plain.unknowns ∨ n ∈ plain.functions := by
  obtain ⟨surface, hs, ht⟩ := Term.ofText_ok ht
  have hleaf := (Term.name_mem_leaves ht).1 (Term.mem_names.mp hn)
  rw [leaves_of_ofRaw h hs] at hleaf
  obtain ⟨hrun, hdigit⟩ := name_mem_map_lexemeOf.mp hleaf
  cases hfun : isFunction r.dialect n with
  | true =>
    exact .inr ((mem_members_iff (k := .function) h).mpr ⟨hrun, by rw [classOf, if_pos hfun]⟩)
  | false =>
    exact .inl ((mem_members_iff (k := .unknown) h).mpr
      ⟨hrun, classOf_eq_unknown.mpr ⟨hfun, hdigit⟩⟩)

theorem disjoint_members (h : ofRaw r raw = .ok plain) {j k : Class} (hne : j ≠ k) :
    (plain.members j).Disjoint (plain.members k) := by
  intro x hj hk
  have hj := ((mem_members_iff h).mp hj).2
  exact hne (hj.symm.trans ((mem_members_iff h).mp hk).2)

/-- A plain formula and what is read from it agree. Its elements fall into
unknowns, constants and functions, no element in two of these, and they are the
runs of its text; the text is the prepared one with each composite, and nothing
else, written as the product of its factors. The unknowns are names of the term,
and a name of the term is an unknown or a function. -/
theorem ofRaw_agrees (h : ofRaw r raw = .ok plain) :
    (plain.unknowns.Disjoint plain.constants ∧ plain.unknowns.Disjoint plain.functions ∧
      plain.constants.Disjoint plain.functions) ∧
    (∀ x, x ∈ plain.unknowns ∨ x ∈ plain.constants ∨ x ∈ plain.functions ↔
      x.toList ∈ runs r.dialect plain.text.toList) ∧
    plain.text.toList = mapRuns r.dialect written (prepare r raw).1 ∧
    (∀ x, x ∈ plain.composites ↔
      x.toList ∈ runs r.dialect (prepare r raw).1 ∧ isComposite x.toList = true) ∧
    ∀ term, Term.ofText r.dialect plain.text = .ok term →
      (∀ x ∈ plain.unknowns, x ∈ term.names) ∧
        ∀ x ∈ term.names, x ∈ plain.unknowns ∨ x ∈ plain.functions := by
  refine ⟨⟨?_, ?_, ?_⟩, fun x => ?_, text_of_ofRaw h, fun x => ?_, fun term ht => ⟨?_, ?_⟩⟩
  · exact disjoint_members (j := .unknown) (k := .constant) h nofun
  · exact disjoint_members (j := .unknown) (k := .function) h nofun
  · exact disjoint_members (j := .constant) (k := .function) h nofun
  · constructor
    · rintro (hx | hx | hx)
      · exact ((mem_members_iff (k := .unknown) h).mp hx).1
      · exact ((mem_members_iff (k := .constant) h).mp hx).1
      · exact ((mem_members_iff (k := .function) h).mp hx).1
    · intro hx
      have hmem : x ∈ plain.members (classOf r.dialect x) := (mem_members_iff h).mpr ⟨hx, rfl⟩
      cases hclass : classOf r.dialect x <;> rw [hclass] at hmem
      · exact .inl hmem
      · exact .inr (.inl hmem)
      · exact .inr (.inr hmem)
  · rw [(ofRaw_ok h).2.composites, mem_elements_prepare]
  · exact fun x hx => mem_names_of_unknown h ht hx
  · exact fun x hx => classified_of_mem_names h ht hx

/-- Composites within one another, one with a symbol, and a function that also
stands bare. -/
theorem ofRaw_agrees_nested :
    ofRaw ⟨true, .math⟩ "1.2a(b)+2a-sin(a2π)*sin" =
      .ok ⟨"1.2*a*(b)+2*a-sin(a*2*3.1415927)*sin", ["a", "b"], ["1.2", "2", "3.1415927"], ["sin"],
        ["1.2a", "2a", "a2π"]⟩ ∧
    (∀ x, x ∈ ["a", "b"] ∨ x ∈ ["1.2", "2", "3.1415927"] ∨ x ∈ ["sin"] ↔
      x.toList ∈ runs .math "1.2*a*(b)+2*a-sin(a*2*3.1415927)*sin".toList) ∧
    ∃ term, Term.ofText .math "1.2*a*(b)+2*a-sin(a*2*3.1415927)*sin" = .ok term ∧
      (∀ x ∈ ["a", "b"], x ∈ term.names) ∧ ∀ x ∈ term.names, x ∈ ["a", "b"] ∨ x ∈ ["sin"] := by
  have h : ofRaw ⟨true, .math⟩ "1.2a(b)+2a-sin(a2π)*sin" =
      .ok ⟨"1.2*a*(b)+2*a-sin(a*2*3.1415927)*sin", ["a", "b"], ["1.2", "2", "3.1415927"], ["sin"],
        ["1.2a", "2a", "a2π"]⟩ := by decide +kernel
  have hread : (Term.ofText .math "1.2*a*(b)+2*a-sin(a*2*3.1415927)*sin").toBool = true := by
    decide +kernel
  obtain ⟨-, hunion, -, -, hnames⟩ := ofRaw_agrees h
  refine ⟨h, hunion, ?_⟩
  cases ht : Term.ofText .math "1.2*a*(b)+2*a-sin(a*2*3.1415927)*sin" with
  | error fault =>
    rw [ht] at hread
    cases hread
  | ok term => exact ⟨term, rfl, hnames term ht⟩

end Names

end FormulaGraph.Plain
