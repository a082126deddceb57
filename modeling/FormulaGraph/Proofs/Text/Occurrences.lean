import FormulaGraph.Proofs.Text.Runs

/-!
The places at which a token stands alone, and the text with these occurrences
replaced. An occurrence that stands alone and is not listed overlaps an earlier
one that is.
-/

namespace FormulaGraph.Text

open FormulaGraph.Plain FormulaGraph.Symbol

variable {place width offset : Nat} {token replacement text rest w x y : List Char}
  {before : Option Char} {kept : List (List Char)} {d : Dialect}

/-- Neither neighbour joins a token that stands between two texts. -/
structure Unjoined (left token right : List Char) : Prop where
  left : ∀ edge ∈ token.head?, ∀ c ∈ left.getLast?, joins edge c = false
  right : ∀ edge ∈ token.getLast?, ∀ c ∈ right.head?, joins edge c = false

theorem isClear_iff_unjoined : isClear token x.getLast? y.head? = true ↔ Unjoined x token y := by
  unfold isClear
  rw [Bool.and_eq_true, Bool.not_eq_true', Bool.not_eq_true', Option.any_eq_false,
    Option.any_eq_false]
  simp only [Option.any_eq_false]
  exact ⟨fun h => ⟨h.1, h.2⟩, fun h => ⟨h.left, h.right⟩⟩

theorem byteSize_pos_of_ne_nil (h : x ≠ []) : 0 < byteSize x := by
  obtain ⟨c, cs, rfl⟩ := List.exists_cons_of_ne_nil h
  exact byteSize_pos c cs

section Places

theorem le_of_mem_placesBetween (h : place ∈ placesBetween width offset kept) : offset ≤ place := by
  fun_induction placesBetween width offset kept with
  | case1 | case2 => cases h
  | case3 offset piece next pieces ih =>
    rcases List.mem_cons.mp h with rfl | h
    · omega
    · have := ih h
      omega

theorem pairwise_placesBetween (width offset : Nat) (kept : List (List Char)) :
    (placesBetween width offset kept).Pairwise fun i j => i + width ≤ j := by
  fun_induction placesBetween width offset kept with
  | case1 | case2 => exact .nil
  | case3 offset piece next pieces ih =>
    exact .cons (fun _ hj => le_of_mem_placesBetween hj) ih

theorem getLast?_behind (htoken : token ≠ []) (w x : List Char) (before : Option Char) :
    (w ++ (token ++ x)).getLast?.or before = x.getLast?.or token.getLast? := by
  rw [List.getLast?_append, List.getLast?_append, Option.or_assoc, Option.or_assoc,
    List.getLast?_eq_some_getLast htoken, Option.some_or]

/-- Where a token stands in a text that holds it at two places: before the
other, at the same place, overlapping it from behind, or wholly behind it. -/
theorem two_places (h : w ++ (token ++ rest) = x ++ (token ++ y)) :
    (∃ v, v ≠ [] ∧ w = x ++ v ∧ v ++ (token ++ rest) = token ++ y) ∨ x = w ∨
      (∃ v t, v ≠ [] ∧ t ≠ [] ∧ x = w ++ v ∧ token = v ++ t) ∨
      ∃ x', x = w ++ (token ++ x') ∧ rest = x' ++ (token ++ y) := by
  rcases List.append_eq_append_iff.mp h with ⟨v, rfl, htail⟩ | ⟨v, rfl, htail⟩
  · by_cases hv : v = []
    · rw [hv, List.append_nil]
      exact .inr (.inl rfl)
    · rcases List.append_eq_append_iff.mp htail with ⟨x', rfl, hrest⟩ | ⟨t, htoken, -⟩
      · exact .inr (.inr (.inr ⟨x', rfl, hrest⟩))
      · by_cases ht : t = []
        · rw [ht, List.append_nil] at htoken
          subst htoken
          rw [List.append_cancel_left_eq] at htail
          exact .inr (.inr (.inr ⟨[], by rw [List.append_nil], htail⟩))
        · exact .inr (.inr (.inl ⟨v, t, hv, ht, rfl, htoken⟩))
  · by_cases hv : v = []
    · rw [hv, List.append_nil]
      exact .inr (.inl rfl)
    · exact .inl ⟨v, hv, rfl, htail.symm⟩

namespace Scanned

theorem clear_of_mem (htoken : token ≠ []) (h : Scanned token before text kept)
    (hplace : place ∈ placesBetween (byteSize token) offset kept) :
    ∃ x y, text = x ++ (token ++ y) ∧ offset + byteSize x = place ∧
      isClear token (x.getLast?.or before) y.head? = true := by
  induction h generalizing offset with
  | last _ => cases hplace
  | @turn before w rest kept _ hclear hkept ih =>
    obtain ⟨piece, pieces, rfl⟩ := hkept.exists_cons
    rw [placesBetween, List.mem_cons] at hplace
    rcases hplace with rfl | hplace
    · exact ⟨w, rest, rfl, rfl, hclear⟩
    · obtain ⟨x, y, rfl, rfl, hlater⟩ := ih hplace
      refine ⟨w ++ (token ++ x), y, by simp, by simp; omega, ?_⟩
      rwa [getLast?_behind htoken]

/-- An occurrence that is not listed begins within the token at an earlier place
that is. -/
theorem mem_or_overlaps (htoken : token ≠ []) (h : Scanned token before text kept)
    (htext : text = x ++ (token ++ y))
    (hclear : isClear token (x.getLast?.or before) y.head? = true) (offset : Nat) :
    offset + byteSize x ∈ placesBetween (byteSize token) offset kept ∨
      ∃ place ∈ placesBetween (byteSize token) offset kept,
        place < offset + byteSize x ∧ offset + byteSize x < place + byteSize token := by
  induction h generalizing x offset with
  | last hmiss =>
    rw [hmiss x (token ++ y) y htext (by simp [htoken]) (List.append_nil _)] at hclear
    cases hclear
  | @turn before w rest kept hmiss _ hkept ih =>
    obtain ⟨piece, pieces, rfl⟩ := hkept.exists_cons
    rw [placesBetween]
    rcases two_places htext with
      ⟨v, hv, rfl, htail⟩ | rfl | ⟨v, t, hv, ht, rfl, htok⟩ | ⟨x', rfl, hrest⟩
    · rw [hmiss x v y rfl hv htail] at hclear
      cases hclear
    · exact .inl List.mem_cons_self
    · have hvpos := byteSize_pos_of_ne_nil hv
      have htpos := byteSize_pos_of_ne_nil ht
      refine .inr ⟨offset + byteSize w, List.mem_cons_self, ?_⟩
      rw [byteSize_append, htok, byteSize_append]
      omega
    · rw [getLast?_behind htoken] at hclear
      have hplace : offset + byteSize (w ++ (token ++ x')) =
          offset + byteSize w + byteSize token + byteSize x' := by
        rw [byteSize_append, byteSize_append]
        omega
      rw [hplace]
      rcases ih hrest hclear (offset + byteSize w + byteSize token) with hm | ⟨place, hm, hp⟩
      · exact .inl (List.mem_cons_of_mem _ hm)
      · exact .inr ⟨place, List.mem_cons_of_mem _ hm, hp⟩

end Scanned

end Places

/-- A list of the places, in bytes, at which a token stands alone in a text. -/
structure ListsAlone (token text : List Char) (places : List Nat) : Prop where
  increasing : places.Pairwise (· < ·)
  apart : places.Pairwise fun i j => i + (String.ofList token).utf8ByteSize ≤ j
  onBoundary : ∀ place ∈ places, String.Pos.Raw.IsValid (String.ofList text) ⟨place⟩
  alone : ∀ place ∈ places, ∃ x y,
    text = x ++ (token ++ y) ∧ (String.ofList x).utf8ByteSize = place ∧ Unjoined x token y
  /-- What is not listed overlaps something listed before it. -/
  complete : ∀ x y, text = x ++ (token ++ y) → Unjoined x token y →
    (String.ofList x).utf8ByteSize ∈ places ∨ ∃ place ∈ places,
      place < (String.ofList x).utf8ByteSize ∧
        (String.ofList x).utf8ByteSize < place + (String.ofList token).utf8ByteSize

theorem listsAlone_of_scanned (htoken : token ≠ []) (h : Scanned token none text kept) :
    ListsAlone token text (placesBetween (byteSize token) 0 kept) := by
  have hpos := byteSize_pos_of_ne_nil htoken
  have hapart := pairwise_placesBetween (byteSize token) 0 kept
  have halone : ∀ place ∈ placesBetween (byteSize token) 0 kept, ∃ x y,
      text = x ++ (token ++ y) ∧ byteSize x = place ∧ Unjoined x token y := by
    intro place hplace
    obtain ⟨x, y, htext, hx, hclear⟩ := h.clear_of_mem htoken hplace
    rw [Option.or_none, isClear_iff_unjoined] at hclear
    exact ⟨x, y, htext, by omega, hclear⟩
  refine ⟨hapart.imp fun hij => by omega, ?_, fun place hplace => ?_, ?_, fun x y htext hfree => ?_⟩
  · rwa [← byteSize_eq]
  · obtain ⟨x, y, rfl, rfl, -⟩ := halone place hplace
    refine String.Pos.Raw.isValid_iff_exists_append.mpr
      ⟨String.ofList x, String.ofList (token ++ y), String.ofList_append, ?_⟩
    rw [byteSize_eq]
    rfl
  · simpa only [← byteSize_eq] using halone
  · have hclear : isClear token (x.getLast?.or none) y.head? = true := by
      rwa [Option.or_none, isClear_iff_unjoined]
    simpa [← byteSize_eq] using h.mem_or_overlaps htoken htext hclear 0

/-- A token that is a whole element stands alone. -/
theorem Unjoined.of_severed
    (hx : ∀ c ∈ x.getLast?, isSeparator d c = true) (hy : Severed d y) : Unjoined x token y :=
  ⟨fun edge _ c hc => joins_of_isSeparator (hx c hc) edge,
    fun edge _ c hc => joins_of_isSeparator (hy c hc) edge⟩

/-- No listed occurrence of a token without separators overlaps one that comes
behind a separator. -/
theorem ListsAlone.mem_of_severed {places : List Nat} (h : ListsAlone token text places)
    (hsolid : Solid d token) (htext : text = x ++ (token ++ y))
    (hx : ∀ c ∈ x.getLast?, isSeparator d c = true) (hy : Severed d y) :
    (String.ofList x).utf8ByteSize ∈ places := by
  refine (h.complete x y htext (.of_severed hx hy)).resolve_right ?_
  rintro ⟨place, hplace, hbefore, hwithin⟩
  obtain ⟨w, rest, hw, rfl, -⟩ := h.alone place hplace
  rw [← byteSize_eq, ← byteSize_eq] at hbefore hwithin
  rw [← byteSize_eq] at hwithin
  rcases two_places (hw.symm.trans htext) with
    ⟨v, -, rfl, -⟩ | rfl | ⟨v, t, hv, -, rfl, rfl⟩ | ⟨x', rfl, -⟩
  · rw [byteSize_append] at hbefore
    omega
  · omega
  · -- The separator at the end of `x` would be a character of the token behind `w`.
    obtain ⟨v, c, rfl⟩ := (List.eq_nil_or_concat' v).resolve_left hv
    have hsep : isSeparator d c = true := hx c (by simp)
    rw [hsolid c (by simp)] at hsep
    cases hsep
  · rw [byteSize_append, byteSize_append] at hwithin
    omega

/-- The search never cuts inside a character. The places that it lists are
increasing and apart, on character boundaries, and those at which the token
stands alone, but for overlaps with one listed before. Exactly the listed
occurrences are replaced. An element of the text that is the token is among
them. -/
theorem replaceAlone_exact (token replacement text : List Char) (htoken : token ≠ []) :
    ∃ places kept, placesAlone? token text = some places ∧ ListsAlone token text places ∧
      text = token.intercalate kept ∧ places = placesBetween (byteSize token) 0 kept ∧
      replaceAlone? token replacement text = some (replacement.intercalate kept) ∧
      replaceAlone token replacement text = replacement.intercalate kept ∧
      occursAlone token text = !places.isEmpty ∧
      ∀ d x y, Solid d token → text = x ++ (token ++ y) →
        (∀ c ∈ x.getLast?, isSeparator d c = true) → (∀ c ∈ y.head?, isSeparator d c = true) →
        (String.ofList x).utf8ByteSize ∈ places := by
  obtain ⟨kept, hkept, hplaces⟩ := exists_scanned htoken text
  have hlists := listsAlone_of_scanned htoken hkept
  refine ⟨_, kept, hplaces, hlists, hkept.eq_intercalate, rfl,
    (hkept.replaceAlone?_eq htoken replacement).2, hkept.replaceAlone_eq htoken, ?_, ?_⟩
  · rw [occursAlone, hplaces, Option.getD_some]
  · exact fun d x y hsolid htext hx hy => hlists.mem_of_severed hsolid htext hx hy

/-- The first occurrence is joined by a letter; the search goes on within it,
with the sign behind its first character, two bytes long. -/
theorem replaceAlone_exact_overlapping :
    ListsAlone ['φ', '+', 'φ'] "aφ+φ+φ+φ+φ-φb".toList [4, 10] ∧
      ∃ kept, "aφ+φ+φ+φ+φ-φb".toList = ['φ', '+', 'φ'].intercalate kept ∧
        "aφ+𝑒+𝑒-φb".toList = ['𝑒'].intercalate kept := by
  have hlisted : placesAlone? ['φ', '+', 'φ'] "aφ+φ+φ+φ+φ-φb".toList = some [4, 10] := by
    decide +kernel
  have hresult : replaceAlone ['φ', '+', 'φ'] ['𝑒'] "aφ+φ+φ+φ+φ-φb".toList =
      "aφ+𝑒+𝑒-φb".toList := by
    decide +kernel
  obtain ⟨places, kept, hplaces, hlists, htext, -, -, hkept, -⟩ :=
    replaceAlone_exact ['φ', '+', 'φ'] ['𝑒'] "aφ+φ+φ+φ+φ-φb".toList (by decide)
  obtain rfl : [4, 10] = places := Option.some.inj (hlisted.symm.trans hplaces)
  rw [hresult] at hkept
  exact ⟨hlists, kept, htext, hkept⟩

end FormulaGraph.Text
