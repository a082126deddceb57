import FormulaGraph.Formula.Plain
import FormulaGraph.Proofs.Text.Scans

/-!
Runs: the parts of a text between separators. Whatever is said of runs follows
from two equations, for a text without separators and for one cut at a
separator. Replacing a token wherever it stands alone replaces the runs that
are the token, provided that runs are tight.
-/

namespace FormulaGraph.Plain

open Text FormulaGraph.Symbol

variable {d : Dialect} {c : Char} {w x y text : List Char}

def Solid (d : Dialect) (w : List Char) : Prop := ∀ c ∈ w, isSeparator d c = false

theorem solid_nil : Solid d [] := fun _ hc => by cases hc

theorem exists_cut (d : Dialect) (text : List Char) : Solid d text ∨
    ∃ w c rest, Solid d w ∧ isSeparator d c = true ∧ text = w ++ c :: rest := by
  induction text with
  | nil => exact .inl solid_nil
  | cons c cs ih =>
    cases hc : isSeparator d c with
    | true => exact .inr ⟨[], c, cs, solid_nil, hc, rfl⟩
    | false =>
      rcases ih with h | ⟨w, c', rest, hw, hc', rfl⟩
      · exact .inl (List.forall_mem_cons.mpr ⟨hc, h⟩)
      · exact .inr ⟨c :: w, c', rest, List.forall_mem_cons.mpr ⟨hc, hw⟩, hc', rfl⟩

/-- Texts by their runs. -/
theorem runs_induction (d : Dialect) {motive : List Char → Prop}
    (solid : ∀ w, Solid d w → motive w)
    (cut : ∀ w c rest, Solid d w → isSeparator d c = true → motive rest → motive (w ++ c :: rest))
    (text : List Char) : motive text := by
  induction h : text.length using Nat.strongRecOn generalizing text with
  | ind n ih =>
    rcases exists_cut d text with hw | ⟨w, c, rest, hw, hc, rfl⟩
    · exact solid text hw
    · refine cut w c rest hw hc (ih rest.length ?_ rest rfl)
      rw [← h, List.length_append, List.length_cons]
      omega

section Runs

theorem runs_solid (hw : Solid d w) (hne : w ≠ []) : runs d w = [w] := by
  unfold runs
  rw [List.splitOnP_eq_singleton hw]
  simp [hne]

theorem runs_cut (hc : isSeparator d c = true) (x y : List Char) :
    runs d (x ++ c :: y) = runs d x ++ runs d y := by
  unfold runs
  rw [List.splitOnP_append_cons x y hc, List.filter_append]

theorem runs_cons (hc : isSeparator d c = true) (y : List Char) : runs d (c :: y) = runs d y :=
  runs_cut hc [] y

theorem of_mem_runs (h : w ∈ runs d text) : Solid d w ∧ w ≠ [] := by
  induction text using runs_induction d with
  | solid x hx =>
    by_cases hne : x = []
    · rw [hne] at h
      cases h
    · rw [runs_solid hx hne, List.mem_singleton] at h
      rw [h]
      exact ⟨hx, hne⟩
  | cut x c rest hx hc ih =>
    rw [runs_cut hc, List.mem_append] at h
    rcases h with h | h
    · by_cases hne : x = []
      · rw [hne] at h
        cases h
      · rw [runs_solid hx hne, List.mem_singleton] at h
        rw [h]
        exact ⟨hx, hne⟩
    · exact ih h

/-- The runs of factors with signs between them. -/
theorem runs_intercalate {ps : List (List Char)} (hc : isSeparator d c = true)
    (hp : ∀ p ∈ ps, Solid d p ∧ p ≠ []) : runs d ([c].intercalate ps) = ps := by
  induction ps with
  | nil => rfl
  | cons p ps ih =>
    obtain ⟨hs, hne⟩ := hp p List.mem_cons_self
    cases ps with
    | nil =>
      rw [List.intercalate_singleton]
      exact runs_solid hs hne
    | cons q qs =>
      rw [List.intercalate_cons_cons, List.append_assoc, List.singleton_append, runs_cut hc,
        runs_solid hs hne, ih fun p hm => hp p (List.mem_cons_of_mem _ hm)]
      rfl

end Runs

section Mapping

variable {f g : List Char → List Char}
  {run : List Char}

/-- The text with the current run and each later one replaced. -/
def mapRunsFrom (d : Dialect) (f : List Char → List Char) (run : List Char) :
    List Char → List Char
  | [] => f run
  | c :: cs =>
    if isSeparator d c then f run ++ c :: mapRunsFrom d f [] cs
    else mapRunsFrom d f (run ++ [c]) cs

def mapRuns (d : Dialect) (f : List Char → List Char) (text : List Char) : List Char :=
  mapRunsFrom d f [] text

theorem mapRunsFrom_solid (hw : Solid d w) : mapRunsFrom d f run w = f (run ++ w) := by
  induction w generalizing run with
  | nil => rw [mapRunsFrom, List.append_nil]
  | cons c cs ih =>
    obtain ⟨hc, hcs⟩ := List.forall_mem_cons.mp hw
    rw [mapRunsFrom, hc, if_neg Bool.false_ne_true, ih hcs, List.append_assoc]
    rfl

theorem mapRunsFrom_cut (hw : Solid d w) (hc : isSeparator d c = true)
    (y : List Char) : mapRunsFrom d f run (w ++ c :: y) = f (run ++ w) ++ c :: mapRuns d f y := by
  induction w generalizing run with
  | nil =>
    rw [List.nil_append, mapRunsFrom, if_pos hc, List.append_nil]
    rfl
  | cons b bs ih =>
    obtain ⟨hb, hbs⟩ := List.forall_mem_cons.mp hw
    rw [List.cons_append, mapRunsFrom, hb, if_neg Bool.false_ne_true, ih hbs, List.append_assoc]
    rfl

theorem mapRuns_solid (hw : Solid d w) : mapRuns d f w = f w := mapRunsFrom_solid hw

theorem mapRuns_cut_solid (hw : Solid d w) (hc : isSeparator d c = true) (y : List Char) :
    mapRuns d f (w ++ c :: y) = f w ++ c :: mapRuns d f y := mapRunsFrom_cut hw hc y

theorem mapRuns_cut (hc : isSeparator d c = true) (x y : List Char) :
    mapRuns d f (x ++ c :: y) = mapRuns d f x ++ c :: mapRuns d f y := by
  induction x using runs_induction d with
  | solid x hx => rw [mapRuns_cut_solid hx hc, mapRuns_solid hx]
  | cut x b rest hx hb ih =>
    rw [List.append_assoc, List.cons_append, mapRuns_cut_solid hx hb, ih, mapRuns_cut_solid hx hb,
      List.append_assoc]
    rfl

theorem mapRuns_congr (h0 : f [] = g []) (h : ∀ w ∈ runs d text, f w = g w) :
    mapRuns d f text = mapRuns d g text := by
  have whole : ∀ {w : List Char}, (w ≠ [] → f w = g w) → f w = g w := by
    intro w hne
    by_cases hw : w = []
    · rw [hw, h0]
    · exact hne hw
  induction text using runs_induction d with
  | solid w hw =>
    rw [mapRuns_solid hw, mapRuns_solid hw]
    exact whole fun hne => h w (by rw [runs_solid hw hne]; simp)
  | cut w c rest hw hc ih =>
    rw [runs_cut hc] at h
    have hfirst := whole fun hne => h w (by rw [runs_solid hw hne]; simp)
    rw [mapRuns_cut_solid hw hc, mapRuns_cut_solid hw hc, hfirst,
      ih fun v hv => h v (List.mem_append_right _ hv)]

theorem mapRuns_id (text : List Char) : mapRuns d id text = text := by
  induction text using runs_induction d with
  | solid w hw => exact mapRuns_solid hw
  | cut w c rest hw hc ih => rw [mapRuns_cut_solid hw hc, ih, id]

theorem mapRuns_mapRuns (text : List Char) :
    mapRuns d g (mapRuns d f text) = mapRuns d (fun w => mapRuns d g (f w)) text := by
  induction text using runs_induction d with
  | solid w hw => rw [mapRuns_solid hw, mapRuns_solid hw]
  | cut w c rest hw hc ih =>
    rw [mapRuns_cut_solid hw hc, mapRuns_cut hc, ih, mapRuns_cut_solid hw hc]

theorem runs_mapRuns (hf : f [] = []) (text : List Char) :
    runs d (mapRuns d f text) = (runs d text).flatMap fun w => runs d (f w) := by
  have solid : ∀ w, Solid d w → runs d (f w) = (runs d w).flatMap fun w => runs d (f w) := by
    intro w hw
    by_cases hne : w = []
    · rw [hne, hf]
      rfl
    · rw [runs_solid hw hne, List.flatMap_singleton]
  induction text using runs_induction d with
  | solid w hw => rw [mapRuns_solid hw, solid w hw]
  | cut w c rest hw hc ih =>
    rw [mapRuns_cut_solid hw hc, runs_cut hc, runs_cut hc, List.flatMap_append, ih, solid w hw]

theorem mapRuns_intercalate {ps : List (List Char)} (hc : isSeparator d c = true) (hg : g [] = [])
    (hp : ∀ p ∈ ps, Solid d p ∧ g p = p) :
    mapRuns d g ([c].intercalate ps) = [c].intercalate ps := by
  induction ps with
  | nil => exact hg
  | cons p ps ih =>
    obtain ⟨hs, heq⟩ := hp p List.mem_cons_self
    cases ps with
    | nil => rw [List.intercalate_singleton, mapRuns_solid hs, heq]
    | cons q qs =>
      rw [List.intercalate_cons_cons, List.append_assoc, List.singleton_append,
        mapRuns_cut_solid hs hc, heq, ih fun p hm => hp p (List.mem_cons_of_mem _ hm)]

end Mapping

section Signs

variable {v : List Char}

theorem of_isSeparator (h : isSeparator d c = true) : isWordChar c = false ∧ c ≠ '.' := by
  have hmem : c ∈ separators ++ brackets := by
    unfold isSeparator at h
    rw [Bool.or_eq_true, Bool.and_eq_true, List.contains_iff_mem, List.contains_iff_mem] at h
    exact List.mem_append.mpr (h.imp_right And.right)
  have hall : ((separators ++ brackets).all fun c => !isWordChar c && c != '.') = true := by
    decide +kernel
  simpa using List.all_eq_true.mp hall c hmem

theorem joins_of_isSeparator (h : isSeparator d c = true) (edge : Char) : joins edge c = false := by
  obtain ⟨hw, hp⟩ := of_isSeparator h
  simp [joins, hw, hp]

def Severed (d : Dialect) (rest : List Char) : Prop := ∀ c ∈ rest.head?, isSeparator d c = true

/-- Word characters, and points between digits. -/
structure Tight (w : List Char) : Prop where
  word : ∀ c ∈ w, isWordChar c = true ∨ c = '.'
  point : ∀ u v, w = u ++ '.' :: v →
    (∃ b ∈ u.getLast?, b.isDigit = true) ∧ ∃ b ∈ v.head?, b.isDigit = true

variable {rest token replacement : List Char} {before : Option Char}

theorem Tight.word_head (h : Tight (c :: w)) : isWordChar c = true := by
  refine (h.word c List.mem_cons_self).resolve_right ?_
  rintro rfl
  obtain ⟨⟨b, hb, -⟩, -⟩ := h.point [] w rfl
  cases hb

theorem Tight.word_last (h : Tight (w ++ [c])) : isWordChar c = true := by
  refine (h.word c (by simp)).resolve_right ?_
  rintro rfl
  obtain ⟨-, b, hb, -⟩ := h.point w [] rfl
  cases hb

/-- A token at the start of what follows a cut in a solid text lies within it. -/
theorem within_of_severed (ht : Solid d token) (hr : Severed d rest)
    (h : v ++ rest = token ++ y) : ∃ v', v = token ++ v' ∧ y = v' ++ rest := by
  rcases List.append_eq_append_iff.mp h.symm with ⟨v', rfl, rfl⟩ | ⟨bs, hbs, hrest⟩
  · exact ⟨v', rfl, rfl⟩
  · cases bs with
    | nil => exact ⟨[], by rw [hbs, List.append_nil, List.append_nil], hrest.symm⟩
    | cons b bs =>
      have hsep : isSeparator d b = true := hr b (by rw [hrest]; rfl)
      rw [ht b (by rw [hbs]; simp)] at hsep
      cases hsep

/-- In a tight run a tight token stands alone only if it is the run. -/
theorem misses_of_tight (hts : Solid d token) (htt : Tight token) (htn : token ≠ [])
    (hw : w ≠ [] → Tight w) (hr : Severed d rest) (hne : w ≠ token) :
    Misses token before w rest := by
  intro u v y huv hv hy
  have hw : Tight w := hw (by rw [huv]; simp [hv])
  obtain ⟨v', rfl, rfl⟩ := within_of_severed hts hr hy
  refine Bool.eq_false_iff.mpr fun h => ?_
  unfold isClear at h
  rw [Bool.and_eq_true, Bool.not_eq_true', Bool.not_eq_true'] at h
  obtain ⟨hbefore, hafter⟩ := h
  rcases List.eq_nil_or_concat' u with rfl | ⟨u', b, rfl⟩
  · -- Nothing precedes the token, so something of the run follows it.
    obtain ⟨token', edge, rfl⟩ := (List.eq_nil_or_concat' token).resolve_left htn
    have hedge := htt.word_last
    cases v' with
    | nil =>
      rw [List.nil_append, List.append_nil] at huv
      exact hne huv
    | cons y v' =>
      have hjoin : joins edge y = true := by
        rcases hw.word y (by rw [huv]; simp) with hy | rfl
        · simp [joins, hedge, hy]
        · obtain ⟨⟨b, hb, hdigit⟩, -⟩ := hw.point (token' ++ [edge]) v' (by rw [huv]; simp)
          rw [List.getLast?_concat, Option.mem_some_iff] at hb
          subst hb
          simp [joins, hedge, hdigit]
      simp [hjoin] at hafter
  · -- What precedes the token is of the same run.
    obtain ⟨edge, token', rfl⟩ := List.exists_cons_of_ne_nil htn
    have hedge := htt.word_head
    have hjoin : joins edge b = true := by
      rcases hw.word b (by rw [huv]; simp) with hb | rfl
      · simp [joins, hedge, hb]
      · obtain ⟨-, x, hx, hdigit⟩ := hw.point u' (edge :: token' ++ v') (by rw [huv]; simp)
        rw [List.cons_append, List.head?_cons, Option.mem_some_iff] at hx
        subst hx
        simp [joins, hedge, hdigit]
    simp [hjoin] at hbefore

theorem isClear_of_severed (hb : ∀ b ∈ before, isSeparator d b = true) (hr : Severed d rest) :
    isClear token before rest.head? = true := by
  have apart : ∀ {edge : Char} {beside : Option Char}, (∀ c ∈ beside, isSeparator d c = true) →
      beside.any (joins edge) = false := by
    intro edge beside h
    exact (Option.any_eq_false ..).mpr fun c hc => by simp [joins_of_isSeparator (h c hc)]
  simp [isClear, apart hb, apart hr]

theorem misses_separator (hts : Solid d token) (hc : isSeparator d c = true) (htn : token ≠ []) :
    Misses token before [c] rest := by
  intro u v y huv hv hy
  obtain ⟨rfl, rfl⟩ := (List.append_eq_singleton_iff.mp huv.symm).resolve_right fun h => hv h.2
  obtain ⟨b, bs, rfl⟩ := List.exists_cons_of_ne_nil htn
  obtain ⟨rfl, -⟩ : c = b ∧ _ := by simpa using hy
  rw [hts c List.mem_cons_self] at hc
  cases hc

end Signs

section Replacing

variable {token replacement : List Char} {before : Option Char}

/-- A text with tight runs is scanned for a tight token run by run. -/
theorem exists_scanned_runs (hts : Solid d token) (htt : Tight token) (htn : token ≠ [])
    (ht : ∀ w ∈ runs d text, Tight w) (replacement : List Char) (before : Option Char)
    (hb : ∀ b ∈ before, isSeparator d b = true) :
    ∃ kept, Scanned token before text kept ∧ replacement.intercalate kept =
      mapRuns d (fun w => if w = token then replacement else w) text := by
  induction text using runs_induction d generalizing before with
  | solid w hw =>
    have hwt : w ≠ [] → Tight w := fun hne => ht w (by rw [runs_solid hw hne]; simp)
    have hend : Severed d [] := fun c hc => by cases hc
    rw [mapRuns_solid hw]
    by_cases heq : w = token
    · subst heq
      have hscan : Scanned w before ([] ++ (w ++ [])) [[], []] :=
        .turn misses_nil (isClear_of_severed hb hend) (.last misses_nil)
      exact ⟨[[], []], by simpa using hscan, by simp⟩
    · exact ⟨[w], .last (misses_of_tight hts htt htn hwt hend heq), by simp [heq]⟩
  | cut w c rest hw hc ih =>
    have hwt : w ≠ [] → Tight w := by
      intro hne
      refine ht w ?_
      rw [runs_cut hc, runs_solid hw hne]
      simp
    have hcut : Severed d (c :: rest) := fun b hb => by cases hb; exact hc
    have hmiss : Misses token (w.getLast?.or before) [c] rest := misses_separator hts hc htn
    obtain ⟨kept, hkept, heq⟩ :=
      ih (fun v hv => ht v (by rw [runs_cut hc]; exact List.mem_append_right _ hv)) (some c) hcut
    obtain ⟨kept, hkept, hkeeps, -⟩ := Scanned.behind hmiss hkept
    rw [mapRuns_cut_solid hw hc, ← heq]
    by_cases hword : w = token
    · subst hword
      obtain ⟨piece, pieces, rfl⟩ := hkept.exists_cons
      rw [List.getLast?_eq_some_getLast htn, Option.some_or,
        ← List.getLast?_eq_some_getLast htn] at hkept
      have hscan : Scanned w before ([] ++ (w ++ c :: rest)) ([] :: piece :: pieces) :=
        .turn misses_nil (isClear_of_severed hb hcut) hkept
      refine ⟨_, hscan, ?_⟩
      rw [List.intercalate_cons_cons, hkeeps, if_pos rfl]
      rfl
    · obtain ⟨kept, hkept, hkeeps', -⟩ :=
        hkept.behind (misses_of_tight hts htt htn hwt hcut hword)
      exact ⟨kept, hkept, by rw [hkeeps', hkeeps, if_neg hword]; rfl⟩

/-- Replacing a tight token where it stands alone replaces the runs that are
the token, if runs are tight. -/
theorem replaceAlone_eq_mapRuns (hts : Solid d token) (htt : Tight token) (htn : token ≠ [])
    (ht : ∀ w ∈ runs d text, Tight w) : replaceAlone token replacement text =
      mapRuns d (fun w => if w = token then replacement else w) text := by
  obtain ⟨kept, hkept, heq⟩ := exists_scanned_runs hts htt htn ht replacement none nofun
  rw [hkept.replaceAlone_eq htn, heq]

end Replacing

end FormulaGraph.Plain
