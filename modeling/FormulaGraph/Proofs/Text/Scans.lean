import FormulaGraph.Text.Occurrence
import Mathlib.Data.List.Basic
import Mathlib.Data.List.Infix

/-!
Scans for a token that stands alone. A scan cuts the text into the pieces that
are kept: with the token between them they are the text, with the replacement
between them the result. The search by byte places goes through the one scan
that a text has and never cuts inside a character.
-/

namespace FormulaGraph.Text

variable {offset width : Nat} {token replacement text rest w x y : List Char}
  {before : Option Char} {kept kept' : List (List Char)}

theorem getLast?_cons_or (c : Char) (x : List Char) (before : Option Char) :
    (c :: x).getLast?.or before = x.getLast?.or (some c) := by
  rw [List.getLast?_cons]
  cases x.getLast? <;> rfl

section Bytes

theorem byteSize_cons (c : Char) (x : List Char) : byteSize (c :: x) = c.utf8Size + byteSize x :=
  rfl

@[simp]
theorem byteSize_append (x y : List Char) : byteSize (x ++ y) = byteSize x + byteSize y := by
  induction x with
  | nil => exact (Nat.zero_add _).symm
  | cons c x ih => rw [List.cons_append, byteSize_cons, byteSize_cons, ih, Nat.add_assoc]

theorem byteSize_eq (x : List Char) : byteSize x = (String.ofList x).utf8ByteSize := by
  induction x with
  | nil => rfl
  | cons c x ih =>
    rw [byteSize_cons, ih, ← List.singleton_append, String.ofList_append,
      String.utf8ByteSize_append, ← String.singleton_eq_ofList, String.utf8ByteSize_singleton]

/-- A text is cut at the end of a part of it. -/
theorem cut?_append (x y : List Char) : cut? (byteSize x) (x ++ y) = some (x, y) := by
  induction x with
  | nil => exact cut?.eq_1 y
  | cons c x ih =>
    have hpos := c.utf8Size_pos
    obtain ⟨place, hplace⟩ : ∃ place, byteSize (c :: x) = place + 1 :=
      ⟨byteSize (c :: x) - 1, by rw [byteSize_cons]; omega⟩
    have hrest : place + 1 - c.utf8Size = byteSize x := by
      rw [← hplace, byteSize_cons, Nat.add_sub_cancel_left]
    rw [byteSize_cons] at hplace
    rw [byteSize_cons, hplace, List.cons_append, cut?, if_pos (by omega), hrest, ih]
    rfl

theorem occurs_iff : occurs token text = true ↔ token <:+: text := by
  unfold occurs
  induction text with
  | nil => cases token <;> simp [find?]
  | cons c cs ih =>
    rw [find?, List.infix_cons_iff, ← ih, ← List.isPrefixOf_iff_prefix]
    split <;> simp [*]

/-- Before the place that is found the token does not begin. -/
theorem exists_of_find?_eq_some {found : Nat} (h : find? token text = some found) :
    ∃ x y, text = x ++ (token ++ y) ∧ byteSize x = found ∧
      ∀ u v, x = u ++ v → v ≠ [] → ¬token <+: v ++ (token ++ y) := by
  induction text generalizing found with
  | nil =>
    cases token with
    | nil =>
      obtain rfl : 0 = found := by simpa [find?] using h
      exact ⟨[], [], rfl, rfl, fun u v huv hv => absurd (List.append_eq_nil_iff.mp huv.symm).2 hv⟩
    | cons => simp [find?] at h
  | cons c cs ih =>
    rw [find?] at h
    split at h
    · next hstart =>
      obtain ⟨y, hy⟩ := List.isPrefixOf_iff_prefix.mp hstart
      obtain rfl := Option.some.inj h
      exact ⟨[], y, hy.symm, rfl, fun u v huv hv =>
        absurd (List.append_eq_nil_iff.mp huv.symm).2 hv⟩
    · next hmiss =>
      obtain ⟨found', hfound, rfl⟩ := Option.map_eq_some_iff.mp h
      obtain ⟨x, y, rfl, rfl, hfirst⟩ := ih hfound
      refine ⟨c :: x, y, rfl, byteSize_cons c x, fun u v huv hv => ?_⟩
      cases u with
      | nil =>
        rw [List.nil_append] at huv
        rw [← huv]
        rwa [List.isPrefixOf_iff_prefix] at hmiss
      | cons b u =>
        rw [List.cons_append, List.cons.injEq] at huv
        exact hfirst u v huv.2 hv

end Bytes

section Scan

/-- The token stands alone nowhere in a stretch of text between `before` and
`rest`. -/
def Misses (token : List Char) (before : Option Char) (w rest : List Char) : Prop :=
  ∀ u v y, w = u ++ v → v ≠ [] → v ++ rest = token ++ y →
    isClear token (u.getLast?.or before) y.head? = false

/-- The turns of a scan, each up to a token that stands alone and past it, with
the pieces that they keep. -/
inductive Scanned (token : List Char) : Option Char → List Char → List (List Char) → Prop where
  | last {before : Option Char} {w : List Char} :
    Misses token before w [] → Scanned token before w [w]
  | turn {before : Option Char} {w rest : List Char} {kept : List (List Char)} :
    Misses token before w (token ++ rest) →
    isClear token (w.getLast?.or before) rest.head? = true →
    Scanned token token.getLast? rest kept →
    Scanned token before (w ++ (token ++ rest)) (w :: kept)

theorem misses_nil : Misses token before [] rest :=
  fun _ _ _ huv hv => absurd (List.append_eq_nil_iff.mp huv.symm).2 hv

theorem Misses.append (hw : Misses token before w (x ++ rest))
    (hx : Misses token (w.getLast?.or before) x rest) : Misses token before (w ++ x) rest := by
  intro u v y huv hv hy
  rcases List.append_eq_append_iff.mp huv with ⟨u', rfl, rfl⟩ | ⟨v', rfl, rfl⟩
  · rw [List.getLast?_append, Option.or_assoc]
    exact hx u' v y rfl hv hy
  · by_cases hv' : v' = []
    · rw [hv', List.append_nil] at hx hw
      rw [hv', List.nil_append] at hv hy
      exact hx [] x y rfl hv hy
    · exact hw u v' y rfl hv' (by rw [← hy, List.append_assoc])

/-- The places of a token of some width between pieces of text, the first of
which begins at an offset. -/
def placesBetween (width : Nat) : (offset : Nat) → List (List Char) → List Nat
  | _, [] | _, [_] => []
  | offset, piece :: next :: pieces =>
    (offset + byteSize piece) ::
      placesBetween width (offset + byteSize piece + width) (next :: pieces)

namespace Scanned

theorem exists_cons (h : Scanned token before text kept) :
    ∃ piece pieces, kept = piece :: pieces := by
  cases h with
  | last _ => exact ⟨_, _, rfl⟩
  | turn _ _ _ => exact ⟨_, _, rfl⟩

theorem eq_intercalate (h : Scanned token before text kept) : text = token.intercalate kept := by
  induction h with
  | last _ => rw [List.intercalate_singleton]
  | turn _ _ hkept ih =>
    obtain ⟨piece, pieces, rfl⟩ := hkept.exists_cons
    rw [List.intercalate_cons_cons, ← ih, List.append_assoc]

/-- A scan begins as well before a stretch in which nothing is found, which the
first piece then begins with. -/
theorem behind (hmiss : Misses token before w rest)
    (h : Scanned token (w.getLast?.or before) rest kept) :
    ∃ kept', Scanned token before (w ++ rest) kept' ∧
      (∀ replacement : List Char,
        replacement.intercalate kept' = w ++ replacement.intercalate kept) ∧
      ∀ width offset, placesBetween width offset kept' =
        placesBetween width (offset + byteSize w) kept := by
  cases h with
  | last hrest =>
    rw [← List.append_nil rest] at hmiss
    exact ⟨[w ++ rest], .last (hmiss.append hrest), by simp, fun _ _ => rfl⟩
  | @turn _ x rest kept hrest hclear hkept =>
    obtain ⟨piece, pieces, rfl⟩ := hkept.exists_cons
    refine ⟨(w ++ x) :: piece :: pieces, ?_, by simp [List.intercalate_cons_cons], ?_⟩
    · rw [← List.append_assoc]
      refine .turn (hmiss.append hrest) ?_ hkept
      rwa [List.getLast?_append, Option.or_assoc]
    · intro width offset
      rw [placesBetween, placesBetween, byteSize_append, ← Nat.add_assoc]

theorem first_unique {w' rest' : List Char} (hmiss : Misses token before w' (token ++ rest'))
    (hclear : isClear token (w.getLast?.or before) rest.head? = true)
    (h : w ++ (token ++ rest) = w' ++ (token ++ rest')) : w' <+: w := by
  rcases List.append_eq_append_iff.mp h with ⟨v, rfl, hv⟩ | ⟨v, rfl, -⟩
  · by_cases hne : v = []
    · rw [hne, List.append_nil]
    · rw [hmiss w v rest rfl hne hv.symm] at hclear
      cases hclear
  · exact List.prefix_append _ _

/-- A text has one scan. -/
theorem unique (htoken : token ≠ []) (h : Scanned token before text kept)
    (h' : Scanned token before text kept') : kept = kept' := by
  induction h generalizing kept' with
  | @last before w hmiss =>
    cases h' with
    | last _ => rfl
    | turn _ hclear _ =>
      rw [hmiss _ _ _ rfl (by simp [htoken]) (List.append_nil _)] at hclear
      cases hclear
  | @turn before w rest kept hmiss hclear hkept ih =>
    generalize htext : w ++ (token ++ rest) = text at h'
    cases h' with
    | last hmiss' =>
      rw [hmiss' w _ rest htext.symm (by simp [htoken]) (List.append_nil _)] at hclear
      cases hclear
    | turn hmiss' hclear' hkept' =>
      obtain rfl := (first_unique hmiss' hclear htext).eq_of_length_le
        (first_unique hmiss hclear' htext.symm).length_le
      rw [List.append_cancel_left_eq, List.append_cancel_left_eq] at htext
      subst htext
      rw [ih hkept']

end Scanned

section Search

variable {first : Char} {more done : List Char}

theorem placesFrom?_of_absent (h : find? (first :: more) rest = none) :
    placesFrom? first more (done ++ rest) (byteSize done) = some [] := by
  rw [placesFrom?, cut?_append]
  simp only [h]

/-- One turn of the search, at the first occurrence in what follows. -/
theorem placesFrom?_turn
    (h : find? (first :: more) (x ++ (first :: more ++ y)) = some (byteSize x)) :
    placesFrom? first more (done ++ (x ++ (first :: more ++ y))) (byteSize done) =
      if isClear (first :: more) (done ++ x).getLast? y.head? then
        (placesFrom? first more (done ++ x ++ first :: more ++ y)
          (byteSize (done ++ x ++ first :: more))).map (byteSize (done ++ x) :: ·)
      else placesFrom? first more (done ++ x ++ [first] ++ (more ++ y))
        (byteSize (done ++ x ++ [first])) := by
  have hat := cut?_append (done ++ x) (first :: more ++ y)
  have hend := cut?_append (done ++ x ++ first :: more) y
  have hnext : byteSize [first] = first.utf8Size := byteSize_cons first []
  simp only [byteSize_append, List.append_assoc, List.cons_append, List.nil_append, hnext]
    at h hat hend ⊢
  rw [placesFrom?, cut?_append]
  simp only [h, hat, hend, Nat.add_assoc]

/-- The search from the end of a part of the text on goes through a scan of what
follows. -/
theorem exists_scanned_from (first : Char) (more done rest : List Char) :
    ∃ kept, Scanned (first :: more) done.getLast? rest kept ∧
      placesFrom? first more (done ++ rest) (byteSize done) =
        some (placesBetween (byteSize (first :: more)) (byteSize done) kept) := by
  induction h : rest.length using Nat.strongRecOn generalizing done rest with
  | ind n ih =>
    cases hfound : find? (first :: more) rest with
    | none =>
      refine ⟨[rest], .last fun u v y huv hv hy => ?_, placesFrom?_of_absent hfound⟩
      have habsent : ¬first :: more <:+: rest := by
        rw [← occurs_iff, occurs, hfound]
        exact Bool.false_ne_true
      exact absurd ⟨u, y, by rw [List.append_assoc, ← hy, List.append_nil, huv]⟩ habsent
    | some found =>
      obtain ⟨x, y, rfl, rfl, hfirst⟩ := exists_of_find?_eq_some hfound
      have hmiss : Misses (first :: more) done.getLast? x ([first] ++ (more ++ y)) :=
        fun u v z huv hv hz => absurd ⟨z, hz.symm⟩ (hfirst u v huv hv)
      rw [List.length_append, List.length_append, List.length_cons] at h
      rw [placesFrom?_turn hfound, List.getLast?_append]
      split
      · next hclear =>
        obtain ⟨kept, hkept, hplaces⟩ := ih y.length (by omega) (done ++ x ++ first :: more) y rfl
        rw [List.getLast?_append_of_ne_nil _ (List.cons_ne_nil _ _)] at hkept
        obtain ⟨piece, pieces, rfl⟩ := hkept.exists_cons
        refine ⟨x :: piece :: pieces, .turn hmiss hclear hkept, ?_⟩
        rw [hplaces, placesBetween, byteSize_append _ (first :: more), byteSize_append]
        rfl
      · next hjoined =>
        -- The search goes on behind the first character of the token that is joined.
        obtain ⟨kept, hkept, hplaces⟩ :=
          ih (more ++ y).length (by rw [List.length_append]; omega) (done ++ x ++ [first])
            (more ++ y) rfl
        have hover : Misses (first :: more) done.getLast? (x ++ [first]) (more ++ y) := by
          refine hmiss.append fun u v z huv hv hz => ?_
          obtain ⟨rfl, rfl⟩ := (List.append_eq_singleton_iff.mp huv.symm).resolve_right
            fun h => hv h.2
          obtain rfl : y = z := by simpa using hz
          exact Bool.eq_false_iff.mpr hjoined
        rw [List.append_assoc, List.getLast?_append] at hkept
        obtain ⟨kept', hkept', -, hbetween⟩ := hkept.behind hover
        refine ⟨kept', by simpa using hkept', ?_⟩
        rw [hplaces, hbetween, List.append_assoc, byteSize_append]

end Search

theorem exists_scanned (htoken : token ≠ []) (text : List Char) :
    ∃ kept, Scanned token none text kept ∧
      placesAlone? token text = some (placesBetween (byteSize token) 0 kept) := by
  obtain ⟨first, more, rfl⟩ := List.exists_cons_of_ne_nil htoken
  exact exists_scanned_from first more [] text

theorem splice?_placesBetween (hne : kept ≠ []) (done : List Char) :
    splice? (byteSize token) replacement (done ++ token.intercalate kept) (byteSize done)
      (placesBetween (byteSize token) (byteSize done) kept) =
        some (replacement.intercalate kept) := by
  induction kept generalizing done with
  | nil => exact absurd rfl hne
  | cons piece kept ih =>
    cases kept with
    | nil => rw [placesBetween, splice?, cut?_append]; simp
    | cons next kept =>
      have hrest := ih (List.cons_ne_nil _ _) (done ++ piece ++ token)
      have hat := cut?_append (done ++ piece) (token ++ token.intercalate (next :: kept))
      simp only [byteSize_append, List.append_assoc] at hrest hat
      rw [placesBetween, List.intercalate_cons_cons, List.append_assoc, splice?, hat]
      simp [cut?_append, hrest, List.intercalate_cons_cons, Nat.add_assoc]

/-- Exactly the tokens that the scan finds are replaced. -/
theorem Scanned.replaceAlone?_eq (htoken : token ≠ []) (h : Scanned token none text kept)
    (replacement : List Char) :
    placesAlone? token text = some (placesBetween (byteSize token) 0 kept) ∧
      replaceAlone? token replacement text = some (replacement.intercalate kept) := by
  obtain ⟨kept', hkept', hplaces⟩ := exists_scanned htoken text
  obtain rfl := h.unique htoken hkept'
  refine ⟨hplaces, ?_⟩
  have hne : kept ≠ [] := by
    obtain ⟨piece, pieces, rfl⟩ := h.exists_cons
    exact List.cons_ne_nil _ _
  rw [replaceAlone?, hplaces, h.eq_intercalate]
  exact splice?_placesBetween hne []

theorem Scanned.replaceAlone_eq (htoken : token ≠ []) (h : Scanned token none text kept) :
    replaceAlone token replacement text = replacement.intercalate kept := by
  rw [replaceAlone, (h.replaceAlone?_eq htoken replacement).2, Option.getD_some]

end Scan

end FormulaGraph.Text
