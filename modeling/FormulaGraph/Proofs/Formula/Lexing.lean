import FormulaGraph.Proofs.Formula.Classified
import FormulaGraph.Proofs.Numeric.DecimalText

/-!
What the lexemes of a text are, said without scanning it. A lexeme takes as many
characters as can belong to it, blanks and tabs stand between lexemes, and a
numeral has one digit at least and one point at most.
-/

namespace FormulaGraph

namespace Numeric

theorem toLower_ne_of_isNumeralChar {c : Char} (h : Lexeme.isNumeralChar c) :
    c.toLower ≠ 'n' ∧ c.toLower ≠ 'i' := by
  have hc : c.isDigit ∨ c = '.' := by simpa [Lexeme.isNumeralChar] using h
  rcases hc with hc | rfl
  · have hb : 48 ≤ c.val ∧ c.val ≤ 57 := by simpa [Char.isDigit] using hc
    have hl : c.toLower = c := by
      unfold Char.toLower
      rw [dif_neg]
      rintro ⟨h1, -⟩
      have h2 : (65 : UInt32) ≤ c.val := h1
      exact absurd (UInt32.le_trans h2 hb.2) (by decide)
    rw [hl]
    constructor <;> rintro rfl <;> revert hc <;> decide
  · decide

/-- A text of digits and points is the decimal it is read as. -/
theorem Double.ofText?_numeral {text : String}
    (ht : ∀ c ∈ text.toList, Lexeme.isNumeralChar c) :
    Double.ofText? text = (Decimal.read? text.toList).map (·.toDouble false) := by
  have hsigned : ∀ c ∈ text.toList.head?, c ≠ '-' ∧ c ≠ '+' := by
    intro c hc
    have := ht c (List.mem_of_mem_head? hc)
    constructor <;> rintro rfl <;> simp [Lexeme.isNumeralChar] at this
  -- A named number would have one of the letters that numerals lack.
  have hname : ∀ name : String, ('n' ∈ name.toList ∨ 'i' ∈ name.toList) →
      String.ofList (text.toList.map Char.toLower) ≠ name := by
    rintro name hn rfl
    rw [String.toList_ofList] at hn
    rcases hn with hn | hn
    · obtain ⟨c, hc, he⟩ := List.mem_map.mp hn
      exact (toLower_ne_of_isNumeralChar (ht c hc)).1 he
    · obtain ⟨c, hc, he⟩ := List.mem_map.mp hn
      exact (toLower_ne_of_isNumeralChar (ht c hc)).2 he
  rw [Double.ofText?_of_unsigned hsigned]
  unfold Double.ofUnsigned?
  split
  · next hread => rw [hread, Option.map_some]
  · next hread =>
    rw [hread, Option.map_none]
    dsimp only
    rw [if_neg, if_neg]
    · exact hname "nan" (by decide)
    · rintro (hn | hn)
      · exact hname "inf" (by decide) hn
      · exact hname "infinity" (by decide) hn

end Numeric

namespace Lexeme

open Numeric

variable {c : Char}

/-- How a sign is written. Numerals and names are no signs. -/
def spelling? : Lexeme → Option (List Char)
  | numeral _ | name _ => none
  | op .add => some ['+']
  | op .sub => some ['-']
  | op .mul => some ['*']
  | op .div => some ['/']
  | op .floorDiv => some ['/', '/']
  | op .mod => some ['%']
  | op .pow => some ['*', '*']
  | openParen => some ['(']
  | closeParen => some [')']
  | openBracket => some ['[']
  | closeBracket => some [']']
  | comma => some [',']

/-- A run of digits and points that is a number. -/
structure IsNumber (run : List Char) : Prop where
  chars : ∀ c ∈ run, isNumeralChar c = true
  digit : ∃ c ∈ run, c.isDigit = true
  point : run.count '.' ≤ 1

/-- A lexeme written as the first characters of a text, with what follows them. -/
inductive Begins : Lexeme → List Char → List Char → Prop where
  | numeral {run rest : List Char} (number : IsNumber run)
      (longest : ∀ c ∈ rest.head?, isNumeralChar c = false) :
      Begins (.numeral (String.ofList run)) run rest
  | name {c : Char} {run rest : List Char} (start : isNameStart c = true)
      (chars : ∀ c ∈ run, isNameChar c = true)
      (longest : ∀ c ∈ rest.head?, isNameChar c = false) :
      Begins (.name (String.ofList (c :: run))) (c :: run) rest
  | sign {l : Lexeme} {w rest : List Char} (spelling : l.spelling? = some w)
      (longest : ∀ (l' : Lexeme) (w' : List Char), l'.spelling? = some w' → w' <+: w ++ rest →
        w'.length ≤ w.length) :
      Begins l w rest

inductive Lexes : List Char → List Lexeme → Prop where
  | nil : Lexes [] []
  | blank {c : Char} {text : List Char} {lexemes : List Lexeme} (blank : c = ' ' ∨ c = '\t')
      (rest : Lexes text lexemes) : Lexes (c :: text) lexemes
  | lexeme {l : Lexeme} {w text : List Char} {lexemes : List Lexeme} (first : Begins l w text)
      (rest : Lexes text lexemes) : Lexes (w ++ text) (l :: lexemes)

variable {l : Lexeme} {w run rest text : List Char} {lexemes : List Lexeme}

section Numbers

theorem isNumeralChar_iff : isNumeralChar c = true ↔ c.isDigit = true ∨ c = '.' := by
  simp [isNumeralChar]

/-- A run of digits and points is one of digits, or one of digits before a point. -/
theorem digits_or_point (h : ∀ c ∈ run, isNumeralChar c = true) :
    (∀ c ∈ run, c.isDigit = true) ∨
      ∃ a b, run = a ++ '.' :: b ∧ (∀ c ∈ a, c.isDigit = true) ∧
        ∀ c ∈ b, isNumeralChar c = true := by
  induction run with
  | nil => exact .inl nofun
  | cons c run ih =>
    obtain ⟨hc, hrun⟩ := List.forall_mem_cons.mp h
    rcases isNumeralChar_iff.mp hc with hdigit | rfl
    · rcases ih hrun with hall | ⟨a, b, rfl, ha, hb⟩
      · exact .inl (List.forall_mem_cons.mpr ⟨hdigit, hall⟩)
      · exact .inr ⟨c :: a, b, rfl, List.forall_mem_cons.mpr ⟨hdigit, ha⟩, hb⟩
    · exact .inr ⟨[], run, rfl, nofun, hrun⟩

theorem count_point_of_digits (h : ∀ c ∈ run, c.isDigit = true) : run.count '.' = 0 :=
  List.count_eq_zero.mpr fun hmem => absurd (h _ hmem) (by decide)

theorem isSome_read?_digits (h : ∀ c ∈ run, c.isDigit = true) :
    (Decimal.read? run).isSome = true ↔ run ≠ [] := by
  constructor
  · rintro hsome rfl
    cases hsome
  · intro hne
    rw [Decimal.read?_digits h hne]
    rfl

/-- What follows a point must be digits, and there must be one on a side. -/
theorem isSome_read?_point {a b : List Char} (ha : ∀ c ∈ a, c.isDigit = true)
    (hb : ∀ c ∈ b, isNumeralChar c = true) :
    (Decimal.read? (a ++ '.' :: b)).isSome = true ↔
      (a ≠ [] ∨ b ≠ []) ∧ ∀ c ∈ b, c.isDigit = true := by
  have htake : (a ++ '.' :: b).takeWhile Char.isDigit = a := by
    rw [List.takeWhile_append_of_pos ha]
    simp
  have hdrop : (a ++ '.' :: b).dropWhile Char.isDigit = '.' :: b := by
    rw [List.dropWhile_append_of_pos ha]
    simp
  have hread : Decimal.read? (a ++ '.' :: b) =
      if a.isEmpty && (b.takeWhile Char.isDigit).isEmpty then none
      else (Decimal.readExponent (b.dropWhile Char.isDigit)).map fun e =>
        ⟨digitsValue (a ++ b.takeWhile Char.isDigit),
          e - (b.takeWhile Char.isDigit).length⟩ := by
    unfold Decimal.read?
    rw [htake, hdrop]
    rfl
  rw [hread]
  rcases digits_or_point hb with hall | ⟨x, y, rfl, hx, hy⟩
  · rw [List.takeWhile_eq_self_iff.mpr hall, List.dropWhile_eq_nil_iff.mpr hall]
    by_cases ha' : a = [] <;> by_cases hb' : b = [] <;>
      simp [ha', hb', Decimal.readExponent] <;> exact hall
  · have hstop : (x ++ '.' :: y).dropWhile Char.isDigit = '.' :: y := by
      rw [List.dropWhile_append_of_pos hx]
      simp
    rw [hstop]
    have hpoint : ¬∀ c ∈ x ++ '.' :: y, c.isDigit = true := fun hall =>
      absurd (hall '.' (by simp)) (by decide)
    simp only [Decimal.readExponent, hpoint, and_false, iff_false]
    split <;> simp

theorem isSome_read?_iff (h : ∀ c ∈ run, isNumeralChar c = true) :
    (Decimal.read? run).isSome = true ↔ IsNumber run := by
  rcases digits_or_point h with hall | ⟨a, b, rfl, ha, hb⟩
  · rw [isSome_read?_digits hall]
    constructor
    · intro hne
      obtain ⟨c, cs, rfl⟩ := List.exists_cons_of_ne_nil hne
      exact ⟨h, ⟨c, List.mem_cons_self, hall c List.mem_cons_self⟩,
        (count_point_of_digits hall).trans_le (Nat.zero_le 1)⟩
    · rintro ⟨-, ⟨c, hc, -⟩, -⟩ rfl
      cases hc
  · rw [isSome_read?_point ha hb]
    have hcount : (a ++ '.' :: b).count '.' = b.count '.' + 1 := by
      rw [List.count_append, count_point_of_digits ha, List.count_cons_self, Nat.zero_add]
    constructor
    · rintro ⟨hne, hall⟩
      refine ⟨h, ?_, ?_⟩
      · rcases hne with hne | hne
        · obtain ⟨c, cs, rfl⟩ := List.exists_cons_of_ne_nil hne
          exact ⟨c, by simp, ha c List.mem_cons_self⟩
        · obtain ⟨c, cs, rfl⟩ := List.exists_cons_of_ne_nil hne
          exact ⟨c, by simp, hall c List.mem_cons_self⟩
      · rw [hcount, count_point_of_digits hall]
    · rintro ⟨-, ⟨c, hc, hdigit⟩, hpoint⟩
      have hnone : b.count '.' = 0 := by omega
      refine ⟨?_, fun x hx => ?_⟩
      · rcases List.mem_append.mp hc with hc | hc
        · exact .inl (List.ne_nil_of_mem hc)
        · rcases List.mem_cons.mp hc with rfl | hc
          · exact absurd hdigit (by decide)
          · exact .inr (List.ne_nil_of_mem hc)
      · rcases isNumeralChar_iff.mp (hb x hx) with hx' | rfl
        · exact hx'
        · exact absurd hx (List.count_eq_zero.mp hnone)

/-- A run of digits and points is the text of a number if it has one digit at
least and one point at most. -/
theorem isSome_ofText?_iff (h : ∀ c ∈ run, isNumeralChar c = true) :
    (Double.ofText? (String.ofList run)).isSome = true ↔ IsNumber run := by
  rw [Double.ofText?_numeral (by rwa [String.toList_ofList]), Option.isSome_map,
    String.toList_ofList, isSome_read?_iff h]

end Numbers

section Signs

theorem spelling?_cases (h : l.spelling? = some w) :
    w.length = 1 ∨ w = ['*', '*'] ∨ w = ['/', '/'] := by
  cases l with
  | op operator => cases operator <;> cases h <;> decide
  | numeral _ | name _ => cases h
  | openParen | closeParen | openBracket | closeBracket | comma => cases h; decide

/-- A sign is the longest one that the text begins with. -/
theorem begins_of_sign? {k : Nat} (h : sign? text = some (l, k)) :
    ∃ w rest, text = w ++ rest ∧ w.length = k ∧ Begins l w rest := by
  have single : ∀ {c : Char} {rest : List Char}, l.spelling? = some [c] →
      (c = '*' → ∀ tail, rest ≠ '*' :: tail) → (c = '/' → ∀ tail, rest ≠ '/' :: tail) →
      ∃ w r, c :: rest = w ++ r ∧ w.length = 1 ∧ Begins l w r := by
    intro c rest hs hstar hslash
    refine ⟨[c], rest, rfl, rfl, .sign hs fun l' w' hs' hpre => ?_⟩
    obtain ⟨tail, htail⟩ := hpre
    rcases spelling?_cases hs' with hone | rfl | rfl
    · exact hone.le
    · exact absurd (List.cons.inj htail).2.symm (hstar (List.cons.inj htail).1.symm tail)
    · exact absurd (List.cons.inj htail).2.symm (hslash (List.cons.inj htail).1.symm tail)
  have double : ∀ {a b : Char} {rest : List Char}, l.spelling? = some [a, b] →
      ∃ w r, a :: b :: rest = w ++ r ∧ w.length = 2 ∧ Begins l w r := by
    intro a b rest hs
    refine ⟨[a, b], rest, rfl, rfl, .sign hs fun l' w' hs' _ => ?_⟩
    rcases spelling?_cases hs' with hone | rfl | rfl
    · exact hone.trans_le (Nat.le_succ 1)
    · exact Nat.le_refl 2
    · exact Nat.le_refl 2
  unfold sign? at h
  split at h
  all_goals cases h
  · exact double rfl
  · exact double rfl
  · exact single rfl (fun h => absurd h (by decide)) fun h => absurd h (by decide)
  · exact single rfl (fun h => absurd h (by decide)) fun h => absurd h (by decide)
  · next hno => exact single rfl (fun _ => hno) fun h => absurd h (by decide)
  · next hno => exact single rfl (fun h => absurd h (by decide)) fun _ => hno
  all_goals exact single rfl (fun h => absurd h (by decide)) fun h => absurd h (by decide)

theorem sign?_of_spelling? (h : l.spelling? = some w)
    (longest : ∀ (l' : Lexeme) (w' : List Char), l'.spelling? = some w' → w' <+: w ++ rest →
      w'.length ≤ w.length) :
    sign? (w ++ rest) = some (l, w.length) := by
  have hstar : w = ['*'] → ∀ tail, rest ≠ '*' :: tail := by
    rintro rfl tail rfl
    exact absurd (longest (.op .pow) ['*', '*'] rfl ⟨tail, rfl⟩) (by decide)
  have hslash : w = ['/'] → ∀ tail, rest ≠ '/' :: tail := by
    rintro rfl tail rfl
    exact absurd (longest (.op .floorDiv) ['/', '/'] rfl ⟨tail, rfl⟩) (by decide)
  cases l with
  | numeral _ | name _ => cases h
  | op operator =>
    cases operator with
    | mul =>
      cases h
      show sign? ('*' :: rest) = _
      rw [sign?]
      · rfl
      · exact hstar rfl
    | div =>
      cases h
      show sign? ('/' :: rest) = _
      rw [sign?]
      · rfl
      · exact hslash rfl
    | add | sub | floorDiv | mod | pow => cases h; rfl
  | openParen | closeParen | openBracket | closeBracket | comma => cases h; rfl

end Signs

section Firsts

open Plain (separator_of_sign? not_isNumeralChar_of_isSeparator not_isNameChar_of_isSeparator
  takeWhile_of_longest)

theorem isNameChar_of_isNameStart (h : isNameStart c = true) : isNameChar c = true := by
  simp only [isNameStart, isNameChar, Char.isAlphanum, Bool.or_eq_true] at h ⊢
  exact h.imp_left .inl

theorem not_isNumeralChar_of_isNameStart (h : isNameStart c = true) : isNumeralChar c = false := by
  refine Bool.eq_false_iff.mpr fun hc => ?_
  rcases isNumeralChar_iff.mp hc with hdigit | rfl
  · rcases Bool.or_eq_true _ _ ▸ h with halpha | hline
    · rw [Plain.not_isDigit_of_isLetter halpha] at hdigit
      cases hdigit
    · rw [beq_iff_eq.mp hline] at hdigit
      exact absurd hdigit (by decide)
  · exact absurd h (by decide)

theorem sign?_eq_none (h : isNumeralChar c = true ∨ isNameChar c = true) (rest : List Char) :
    sign? (c :: rest) = none := by
  cases hs : sign? (c :: rest) with
  | none => rfl
  | some found =>
    have hc := separator_of_sign? hs
    rw [not_isNumeralChar_of_isSeparator hc, not_isNameChar_of_isSeparator hc] at h
    exact absurd h (by decide)

theorem head?_dropWhile (q : Char → Bool) (cs : List Char) :
    ∀ c ∈ (cs.dropWhile q).head?, q c = false := by
  intro c hc
  have := List.head?_dropWhile_not q cs
  rwa [Option.mem_def.mp hc] at this

theorem begins_of_first? {k : Nat} (h : first? text = some (l, k)) :
    ∃ w rest, text = w ++ rest ∧ w.length = k ∧ Begins l w rest := by
  unfold first? at h
  split at h
  · next found hs =>
    cases h
    exact begins_of_sign? hs
  · cases h
  · next c cs _ =>
    have hrun : ∀ q : Char → Bool, ∀ b ∈ (c :: cs).takeWhile q, q b = true := fun q =>
      List.all_eq_true.mp List.all_takeWhile
    split at h
    · dsimp only at h
      split at h
      · next hnumber =>
        cases h
        exact ⟨_, _, List.takeWhile_append_dropWhile.symm, rfl,
          .numeral ((isSome_ofText?_iff (hrun _)).mp hnumber) (head?_dropWhile _ _)⟩
      · cases h
    · split at h
      · next hstart =>
        cases h
        have htake : (c :: cs).takeWhile isNameChar = c :: cs.takeWhile isNameChar := by
          rw [List.takeWhile_cons, if_pos (isNameChar_of_isNameStart hstart)]
        have hdrop : cs = cs.takeWhile isNameChar ++ cs.dropWhile isNameChar :=
          List.takeWhile_append_dropWhile.symm
        rw [htake]
        refine ⟨_, cs.dropWhile isNameChar, congrArg (c :: ·) hdrop, rfl, .name hstart ?_
          (head?_dropWhile _ _)⟩
        exact List.all_eq_true.mp List.all_takeWhile
      · cases h

theorem Begins.first? (h : Begins l w rest) : first? (w ++ rest) = some (l, w.length) := by
  cases h with
  | numeral number longest =>
    obtain ⟨c, hc, -⟩ := number.digit
    obtain ⟨c, cs, rfl⟩ := List.exists_cons_of_ne_nil (List.ne_nil_of_mem hc)
    have hchar := number.chars c List.mem_cons_self
    unfold Lexeme.first?
    rw [List.cons_append, sign?_eq_none (.inl hchar)]
    dsimp only
    rw [if_pos hchar, ← List.cons_append, takeWhile_of_longest number.chars longest,
      if_pos ((isSome_ofText?_iff number.chars).mpr number)]
  | @name c run _ start chars longest =>
    have hchar := isNameChar_of_isNameStart start
    unfold Lexeme.first?
    rw [List.cons_append, sign?_eq_none (.inr hchar)]
    dsimp only
    rw [not_isNumeralChar_of_isNameStart start, if_neg Bool.false_ne_true, if_pos start,
      ← List.cons_append,
      takeWhile_of_longest (List.forall_mem_cons.mpr ⟨hchar, chars⟩) longest]
  | sign spelling longest =>
    unfold Lexeme.first?
    rw [sign?_of_spelling? spelling longest]

/-- A lexeme has characters, and the first of them is no blank. -/
theorem Begins.head (h : Begins l w rest) :
    ∃ c cs, w = c :: cs ∧ (c == ' ' || c == '\t') = false := by
  have inked : ∀ {c : Char}, isNumeralChar c = true ∨ isNameChar c = true →
      (c == ' ' || c == '\t') = false := by
    intro c hc
    refine Bool.eq_false_iff.mpr fun hb => ?_
    rw [Bool.or_eq_true, beq_iff_eq, beq_iff_eq] at hb
    rcases hb with rfl | rfl <;> exact absurd hc (by decide)
  cases h with
  | numeral number _ =>
    obtain ⟨c, hc, -⟩ := number.digit
    obtain ⟨c, cs, rfl⟩ := List.exists_cons_of_ne_nil (List.ne_nil_of_mem hc)
    exact ⟨c, cs, rfl, inked (.inl (number.chars c List.mem_cons_self))⟩
  | name start _ _ => exact ⟨_, _, rfl, inked (.inr (isNameChar_of_isNameStart start))⟩
  | sign spelling _ =>
    cases l with
    | numeral _ | name _ => cases spelling
    | op operator => cases operator <;> cases spelling <;> exact ⟨_, _, rfl, by decide⟩
    | openParen | closeParen | openBracket | closeBracket | comma =>
      cases spelling
      exact ⟨_, _, rfl, by decide⟩

end Firsts

theorem lexes_of_scan {skip : Nat} (h : scan skip text = some lexemes) :
    Lexes (text.drop skip) lexemes := by
  fun_induction scan skip text generalizing lexemes with
  | case1 skip =>
    cases h
    rw [List.drop_nil]
    exact .nil
  | case2 skip c cs ih => exact ih h
  | case3 c cs hc ih =>
    rw [Bool.or_eq_true, beq_iff_eq, beq_iff_eq] at hc
    exact .blank hc (ih h)
  | case4 c cs hc hf => cases h
  | case5 c cs hc l k hf ih =>
    obtain ⟨more, hmore, rfl⟩ := Option.map_eq_some_iff.mp h
    obtain ⟨w, rest, htext, rfl, hbegins⟩ := begins_of_first? hf
    obtain ⟨b, bs, rfl, -⟩ := hbegins.head
    obtain ⟨rfl, hcs⟩ := List.cons.inj htext
    have hrest := ih hmore
    rw [List.length_cons, Nat.add_sub_cancel, hcs, List.append_eq, List.drop_left] at hrest
    rw [htext]
    exact .lexeme hbegins hrest

/-- Scanning a text gives its lexemes, and fails where there are none. -/
theorem ofText?_eq_some_iff {text : String} :
    Lexeme.ofText? text = some lexemes ↔ Lexes text.toList lexemes := by
  constructor
  · intro h
    exact lexes_of_scan h
  · intro h
    show scan 0 text.toList = _
    generalize text.toList = cs at h
    induction h with
    | nil => rfl
    | blank hc _ ih => rcases hc with rfl | rfl <;> exact ih
    | lexeme first _ ih =>
      obtain ⟨c, cs, rfl, hc⟩ := first.head
      have hfirst := first.first?
      rw [List.cons_append] at hfirst ⊢
      rw [scan, hc, if_neg Bool.false_ne_true, hfirst]
      dsimp only
      rw [List.length_cons, Nat.add_sub_cancel, Plain.scan_skip, ih]
      rfl

end Lexeme

end FormulaGraph
