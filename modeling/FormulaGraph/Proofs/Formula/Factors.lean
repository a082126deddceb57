import FormulaGraph.Proofs.Text.Runs

/-!
Atoms of plain formulas, which are numerals and words of letters, and factors
of composites, which are numerals, letters and symbols. All of them are tight,
and a composite is its factors in order.
-/

namespace FormulaGraph.Plain

open Text FormulaGraph.Symbol

variable {d : Dialect} {c : Char} {w x y text : List Char}

section Characters

theorem isWordChar_of_range {range : Nat × Nat} (hr : range ∈ alphanumericRanges)
    (hlo : range.1 ≤ c.toNat) (hhi : c.toNat ≤ range.2) : isWordChar c = true := by
  have hc : isAlphanumeric c = true :=
    List.any_eq_true.mpr ⟨range, hr, by simp [hlo, hhi]⟩
  rw [isWordChar, hc, Bool.true_or]

theorem isDigit_iff : c.isDigit = true ↔ 0x30 ≤ c.toNat ∧ c.toNat ≤ 0x39 := by
  change (decide (c.val ≥ '0'.val) && decide (c.val ≤ '9'.val)) = true ↔ _
  rw [Bool.and_eq_true, decide_eq_true_eq, decide_eq_true_eq]
  exact Iff.rfl

theorem isLetter_iff : isLetter c = true ↔
    0x41 ≤ c.toNat ∧ c.toNat ≤ 0x5a ∨ 0x61 ≤ c.toNat ∧ c.toNat ≤ 0x7a := by
  change (decide (c.val ≥ 'A'.val ∧ c.val ≤ 'Z'.val) ||
    (decide (c.val ≥ 'a'.val) && decide (c.val ≤ 'z'.val))) = true ↔ _
  rw [Bool.or_eq_true, Bool.and_eq_true, decide_eq_true_eq, decide_eq_true_eq, decide_eq_true_eq]
  exact Iff.rfl

theorem isWordChar_of_isDigit (h : c.isDigit = true) : isWordChar c = true := by
  have hr : (0x30, 0x39) ∈ alphanumericRanges := by decide +kernel
  obtain ⟨hlo, hhi⟩ := isDigit_iff.mp h
  exact isWordChar_of_range hr hlo hhi

theorem isWordChar_of_isLetter (h : isLetter c = true) : isWordChar c = true := by
  have hu : (0x41, 0x5a) ∈ alphanumericRanges := by decide +kernel
  have hl : (0x61, 0x7a) ∈ alphanumericRanges := by decide +kernel
  rcases isLetter_iff.mp h with ⟨hlo, hhi⟩ | ⟨hlo, hhi⟩
  · exact isWordChar_of_range hu hlo hhi
  · exact isWordChar_of_range hl hlo hhi

theorem isWordChar_of_isIrrational (h : isIrrational c = true) : isWordChar c = true := by
  have hall : ∀ entry ∈ irrationals, isWordChar entry.1 = true := by decide +kernel
  obtain ⟨entry, hm, he⟩ := List.any_eq_true.mp h
  rw [← beq_iff_eq.mp he]
  exact hall entry hm

theorem not_isDigit_of_isLetter (h : isLetter c = true) : c.isDigit = false := by
  refine Bool.eq_false_iff.mpr fun hd => ?_
  have hdigit := isDigit_iff.mp hd
  have hletter := isLetter_iff.mp h
  omega

end Characters

section Tightness

theorem tight_of_word (h : ∀ c ∈ w, isWordChar c = true) : Tight w where
  word c hc := .inl (h c hc)
  point u v huv := by
    have hpoint : isWordChar '.' = true := h '.' (by rw [huv]; simp)
    exact absurd hpoint (by decide +kernel)

theorem Tight.append (hx : Tight x) (hy : Tight y) : Tight (x ++ y) where
  word c hc := (List.mem_append.mp hc).elim (hx.word c) (hy.word c)
  point u v huv := by
    rcases List.append_eq_append_iff.mp huv with ⟨u', rfl, hy'⟩ | ⟨bs, hx', hv⟩
    · obtain ⟨⟨b, hb, hdigit⟩, hhead⟩ := hy.point u' v hy'
      refine ⟨⟨b, ?_, hdigit⟩, hhead⟩
      rw [List.getLast?_append, Option.mem_def.mp hb]
      rfl
    · cases bs with
      | nil =>
        obtain ⟨⟨b, hb, -⟩, -⟩ := hy.point [] v hv.symm
        cases hb
      | cons b bs =>
        rw [List.cons_append, List.cons.injEq] at hv
        obtain ⟨rfl, rfl⟩ := hv
        obtain ⟨hlast, b, hb, hdigit⟩ := hx.point u bs hx'
        refine ⟨hlast, b, ?_, hdigit⟩
        rw [List.head?_append, Option.mem_def.mp hb]
        rfl

theorem tight_flatten {ws : List (List Char)} (h : ∀ w ∈ ws, Tight w) : Tight ws.flatten := by
  induction ws with
  | nil => exact tight_of_word fun c hc => by cases hc
  | cons w ws ih =>
    rw [List.forall_mem_cons] at h
    exact h.1.append (ih h.2)

theorem Tight.solid (h : Tight w) : Solid d w := by
  intro c hc
  refine Bool.eq_false_iff.mpr fun hsep => ?_
  obtain ⟨hword, hpoint⟩ := of_isSeparator hsep
  rcases h.word c hc with h | h
  · rw [hword] at h
    cases h
  · exact hpoint h

end Tightness

section Numerals

/-- Digits, or digits around a point. -/
inductive Numeral : List Char → Prop where
  | whole {a : List Char} (some : a ≠ []) (digits : ∀ c ∈ a, c.isDigit = true) : Numeral a
  | pointed {a b : List Char} (some : a ≠ []) (digits : ∀ c ∈ a, c.isDigit = true)
      (some' : b ≠ []) (digits' : ∀ c ∈ b, c.isDigit = true) : Numeral (a ++ '.' :: b)

theorem Numeral.head (h : Numeral w) : ∃ c ∈ w.head?, c.isDigit = true := by
  cases h with
  | whole some digits =>
    obtain ⟨c, cs, rfl⟩ := List.exists_cons_of_ne_nil some
    exact ⟨c, rfl, digits c List.mem_cons_self⟩
  | pointed some digits =>
    obtain ⟨c, cs, rfl⟩ := List.exists_cons_of_ne_nil some
    exact ⟨c, rfl, digits c List.mem_cons_self⟩

theorem Numeral.ne_nil (h : Numeral w) : w ≠ [] := by
  rintro rfl
  obtain ⟨c, hc, -⟩ := h.head
  cases hc

theorem Numeral.isNumeralChar (h : Numeral w) : ∀ c ∈ w, (c.isDigit || c == '.') = true := by
  intro c hc
  cases h with
  | whole _ digits => rw [digits c hc, Bool.true_or]
  | pointed _ digits _ digits' =>
    rcases List.mem_append.mp hc with hc | hc
    · rw [digits c hc, Bool.true_or]
    · rcases List.mem_cons.mp hc with rfl | hc
      · rfl
      · rw [digits' c hc, Bool.true_or]

theorem Numeral.tight (h : Numeral w) : Tight w := by
  cases h with
  | whole some digits => exact tight_of_word fun c hc => isWordChar_of_isDigit (digits c hc)
  | @pointed a b some digits some' digits' =>
    have not_point : ∀ {l : List Char}, (∀ c ∈ l, c.isDigit = true) → '.' ∉ l :=
      fun hl hm => absurd (hl '.' hm) (by decide)
    refine ⟨fun c hc => ?_, fun u v huv => ?_⟩
    · rcases List.mem_append.mp hc with hc | hc
      · exact .inl (isWordChar_of_isDigit (digits c hc))
      · exact (List.mem_cons.mp hc).symm.imp_left fun hc => isWordChar_of_isDigit (digits' c hc)
    · -- There is only one point, so the parts around it are the digits.
      obtain ⟨rfl, -, rfl⟩ :=
        (List.append_cons_inj_of_notMem (not_point digits) (not_point digits')).mp huv
      obtain ⟨a', e, rfl⟩ := (List.eq_nil_or_concat' a).resolve_left some
      obtain ⟨c, b', rfl⟩ := List.exists_cons_of_ne_nil some'
      exact ⟨⟨e, by simp, digits e (by simp)⟩, c, rfl, digits' c (by simp)⟩

/-- What `numeralLength` measures is a numeral. -/
theorem numeral_take (h : (text.takeWhile Char.isDigit) ≠ []) :
    Numeral (text.take (numeralLength Char.isDigit text)) := by
  obtain ⟨a, r, ha, hr, rfl⟩ : ∃ a r, text.takeWhile Char.isDigit = a ∧
      text.dropWhile Char.isDigit = r ∧ text = a ++ r :=
    ⟨_, _, rfl, rfl, List.takeWhile_append_dropWhile.symm⟩
  have hdigits : ∀ c ∈ a, c.isDigit = true := by
    rw [← ha]
    exact List.all_eq_true.mp List.all_takeWhile
  rw [ha] at h
  have hwhole : Numeral a := .whole h hdigits
  unfold numeralLength
  dsimp only
  rw [ha, List.drop_left]
  split
  · next rest =>
    split
    · rwa [List.take_left]
    · next hf =>
      have hf' : rest.takeWhile Char.isDigit ≠ [] := by simpa using hf
      have htake : ∀ {l : List Char}, (l ++ '.' :: rest).take
          (l.length + 1 + (rest.takeWhile Char.isDigit).length) =
            l ++ '.' :: rest.takeWhile Char.isDigit := by
        intro l
        rw [Nat.add_assoc, List.take_length_add_append, Nat.add_comm, List.take_succ_cons]
        congr 2
        exact List.prefix_iff_eq_take.mp (List.takeWhile_prefix _) |>.symm
      rw [htake]
      exact .pointed h hdigits hf' (List.all_eq_true.mp List.all_takeWhile)
  · rwa [List.take_left]

theorem numeral_of_isNumeral (h : isNumeral text = true) : Numeral text := by
  unfold isNumeral at h
  rw [Bool.and_eq_true, beq_iff_eq] at h
  obtain ⟨hne, hlen⟩ := h
  have hdigits : text.takeWhile Char.isDigit ≠ [] := by
    intro hnone
    have hzero : numeralLength Char.isDigit text = 0 := by
      unfold numeralLength
      dsimp only
      rw [hnone]
      rfl
    rw [hzero] at hlen
    rw [List.length_eq_zero_iff.mp hlen.symm] at hne
    cases hne
  have hnum := numeral_take hdigits
  rwa [hlen, List.take_length] at hnum

end Numerals

section Atoms

/-- A numeral, or a word of letters. -/
inductive Atom (w : List Char) : Prop where
  | numeral (numeral : Numeral w)
  | word (some : w ≠ []) (letters : ∀ c ∈ w, isLetter c = true)

/-- A numeral, a letter or a symbol. -/
inductive Factor : List Char → Prop where
  | numeral {w : List Char} (numeral : Numeral w) : Factor w
  | letter {c : Char} (letter : isLetter c = true) : Factor [c]
  | symbol {c : Char} (symbol : isIrrational c = true) : Factor [c]

theorem Atom.ne_nil (h : Atom w) : w ≠ [] := by
  cases h with
  | numeral h => exact h.ne_nil
  | word h => exact h

theorem Atom.tight (h : Atom w) : Tight w := by
  cases h with
  | numeral h => exact h.tight
  | word _ h => exact tight_of_word fun c hc => isWordChar_of_isLetter (h c hc)

theorem Factor.tight (h : Factor w) : Tight w := by
  cases h with
  | numeral h => exact h.tight
  | letter h =>
    exact tight_of_word (List.forall_mem_singleton.mpr (isWordChar_of_isLetter h))
  | symbol h =>
    exact tight_of_word (List.forall_mem_singleton.mpr (isWordChar_of_isIrrational h))

/-- Factors are what they say, and together they are the text. -/
theorem factors?_spec {skip : Nat} {cs : List Char} {fs : List (List Char)}
    (h : factors? skip cs = some fs) : cs.drop skip = fs.flatten ∧ ∀ f ∈ fs, Factor f := by
  induction cs generalizing skip fs with
  | nil =>
    cases h
    simp
  | cons c cs ih =>
    cases skip with
    | succ skip => exact ih h
    | zero =>
      unfold factors? at h
      split at h
      · next hdigit =>
        obtain ⟨rest, hrest, rfl⟩ := Option.map_eq_some_iff.mp h
        obtain ⟨hflat, hall⟩ := ih hrest
        have hnum : Numeral ((c :: cs).take (numeralLength Char.isDigit (c :: cs))) :=
          numeral_take (by simp [hdigit])
        have hpos : numeralLength Char.isDigit (c :: cs) ≠ 0 := by
          intro hzero
          rw [hzero] at hnum
          exact hnum.ne_nil rfl
        obtain ⟨n, hn⟩ := Nat.exists_eq_succ_of_ne_zero hpos
        rw [hn] at hnum hflat ⊢
        refine ⟨?_, List.forall_mem_cons.mpr ⟨.numeral hnum, hall⟩⟩
        rw [List.flatten_cons, ← hflat]
        exact (List.take_append_drop (n + 1) (c :: cs)).symm
      · split at h
        · next hkind =>
          obtain ⟨rest, hrest, rfl⟩ := Option.map_eq_some_iff.mp h
          obtain ⟨hflat, hall⟩ := ih hrest
          refine ⟨by rw [List.flatten_cons, ← hflat]; rfl, List.forall_mem_cons.mpr ⟨?_, hall⟩⟩
          exact (Bool.or_eq_true _ _ ▸ hkind).elim .letter .symbol
        · cases h

end Atoms

end FormulaGraph.Plain
