import FormulaGraph.Formula.Symbol
import FormulaGraph.Proofs.Text.Scans

/-!
Typed names and their symbols. Replacing a name by a mark that no name holds
leaves none of that name behind and brings in none of another, so a text whose
names were replaced holds none. All else in the text is kept.
-/

namespace FormulaGraph

namespace Text

variable {token other text : List Char} {mark : Char}

theorem startsWith_iff (h : token ≠ []) : startsWith token text = true ↔ token <+: text := by
  simp [startsWith, h]

section Replacing

variable {skip : Nat}

theorem prefix_of_replaced (hmark : mark ∉ other)
    (h : other <+: replaceFrom token [mark] 0 text) : other <+: text := by
  induction text generalizing other with
  | nil => exact h
  | cons c cs ih =>
    cases other with
    | nil => exact List.nil_prefix
    | cons o os =>
      rw [List.mem_cons, not_or] at hmark
      rw [replaceFrom] at h
      split at h
      · exact absurd (List.cons_prefix_cons.mp h).1.symm hmark.1
      · obtain ⟨rfl, hrest⟩ := List.cons_prefix_cons.mp h
        exact List.cons_prefix_cons.mpr ⟨rfl, ih hmark.2 hrest⟩

theorem infix_of_cons_mark (hmark : mark ∉ other) (h : other <:+: mark :: text) :
    other <:+: text := by
  rcases List.infix_cons_iff.mp h with h | h
  · cases other with
    | nil => exact List.nil_infix
    | cons o os =>
      obtain ⟨rfl, -⟩ := List.cons_prefix_cons.mp h
      exact absurd List.mem_cons_self hmark
  · exact h

/-- What is found after replacing stood in the text, where the scan has not hit. -/
theorem suffix_of_replaced (hmark : mark ∉ other)
    (h : other <:+: replaceFrom token [mark] skip text) :
    ∃ rest, rest <:+ text ∧ other <+: rest ∧ startsWith token rest = false := by
  induction text generalizing skip with
  | nil =>
    have hnil : other = [] := by cases skip <;> exact List.infix_nil.mp h
    exact ⟨[], List.suffix_rfl, hnil ▸ List.prefix_rfl, by cases token <;> rfl⟩
  | cons c cs ih =>
    have onward : ∀ {skip}, other <:+: replaceFrom token [mark] skip cs →
        ∃ rest, rest <:+ c :: cs ∧ other <+: rest ∧ startsWith token rest = false := fun h => by
      obtain ⟨rest, hrest, hfound⟩ := ih h
      exact ⟨rest, hrest.trans (List.suffix_cons c cs), hfound⟩
    cases skip with
    | succ skip => exact onward h
    | zero =>
      rw [replaceFrom] at h
      split at h
      · exact onward (infix_of_cons_mark hmark h)
      · next hmiss =>
        rcases List.infix_cons_iff.mp h with h | h
        · have hfirst : other <+: replaceFrom token [mark] 0 (c :: cs) := by
            rwa [replaceFrom, if_neg hmiss]
          exact ⟨_, List.suffix_rfl, prefix_of_replaced hmark hfirst, Bool.not_eq_true _ ▸ hmiss⟩
        · exact onward h

end Replacing

end Text

namespace Symbol

variable {text : String} {names : List (String × Char)} {found : Option (List Char)}

/-- One typed name replaced in what was found before, or else in the text. -/
def replaceName (text : String) (found : Option (List Char)) (entry : String × Char) :
    Option (List Char) :=
  if Text.occurs entry.1.toList (found.getD text.toList) then
    some (Text.replaceAll entry.1.toList [entry.2] (found.getD text.toList))
  else found

theorem expandNames?_eq (text : String) :
    expandNames? text = (typedNames.foldl (replaceName text) none).map String.ofList := rfl

theorem typedNames_nonempty : ∀ e ∈ typedNames, e.1.toList ≠ [] := by decide

theorem typedNames_unmarked : ∀ e ∈ typedNames, ∀ e' ∈ typedNames, e.2 ∉ e'.1.toList := by decide

theorem foldl_replaceName_of_free (hne : ∀ e ∈ names, e.1.toList ≠ [])
    (h : ∀ e ∈ names, ¬e.1.toList <:+: text.toList) :
    names.foldl (replaceName text) none = none := by
  induction names with
  | nil => rfl
  | cons e names ih =>
    have hmiss : Text.occurs e.1.toList text.toList = false :=
      Bool.eq_false_iff.mpr fun ho =>
        h e List.mem_cons_self (Text.occurs_iff.mp ho)
    rw [List.foldl_cons, replaceName, Option.getD_none, if_neg (by simp [hmiss])]
    exact ih (fun e he => hne e (List.mem_cons_of_mem _ he))
      fun e he => h e (List.mem_cons_of_mem _ he)

/-- A name that is replaced, or was not there, is not there at the end. -/
theorem free_foldl_replaceName {name : List Char} (hne : ∀ e ∈ names, e.1.toList ≠ [])
    (hmarks : ∀ e ∈ names, e.2 ∉ name)
    (h : name ∈ names.map (·.1.toList) ∨ ¬name <:+: found.getD text.toList) :
    ¬name <:+: (names.foldl (replaceName text) found).getD text.toList := by
  induction names generalizing found with
  | nil => simpa using h
  | cons e names ih =>
    have hmark := hmarks e List.mem_cons_self
    refine ih (fun e he => hne e (List.mem_cons_of_mem _ he))
      (fun e he => hmarks e (List.mem_cons_of_mem _ he)) ?_
    rw [List.map_cons, List.mem_cons, or_assoc] at h
    unfold replaceName
    split
    · rcases h with rfl | h | h
      · refine .inr fun hin => ?_
        obtain ⟨rest, -, hfound, hmiss⟩ := Text.suffix_of_replaced hmark hin
        rw [(Text.startsWith_iff (hne e List.mem_cons_self)).mpr hfound] at hmiss
        cases hmiss
      · exact .inl h
      · refine .inr fun hin => ?_
        obtain ⟨rest, hrest, hfound, -⟩ := Text.suffix_of_replaced hmark hin
        exact h (hfound.isInfix.trans hrest.isInfix)
    · next hmiss =>
      rcases h with rfl | h | h
      · exact .inr fun hin => hmiss (Text.occurs_iff.mpr hin)
      · exact .inl h
      · exact .inr h

/-- A text in which none of the typed names stands. -/
def Nameless (text : List Char) : Prop := ∀ e ∈ typedNames, ¬e.1.toList <:+: text

theorem toList_expanded (text : String) : ((expandNames? text).getD text).toList =
    (typedNames.foldl (replaceName text) none).getD text.toList := by
  rw [expandNames?_eq]
  cases typedNames.foldl (replaceName text) none <;> simp

theorem nameless_expanded (text : String) : Nameless ((expandNames? text).getD text).toList := by
  intro e he
  rw [toList_expanded]
  exact free_foldl_replaceName typedNames_nonempty
    (fun e' he' => typedNames_unmarked e' he' e he) (.inl (List.mem_map_of_mem he))

theorem expandNames?_eq_none_iff : expandNames? text = none ↔ Nameless text.toList := by
  constructor
  · intro h
    have hfree := nameless_expanded text
    rwa [h] at hfree
  · intro h
    rw [expandNames?_eq, foldl_replaceName_of_free typedNames_nonempty h, Option.map_none]

theorem expandNames?_expanded (text : String) :
    expandNames? ((expandNames? text).getD text) = none :=
  expandNames?_eq_none_iff.mpr (nameless_expanded text)

/-- A text with names in it replaced by their marks. What stands between them is
kept. -/
inductive Expands (names : List (String × Char)) : List Char → List Char → Prop where
  | nil : Expands names [] []
  | keep {x y : List Char} (c : Char) : Expands names x y → Expands names (c :: x) (c :: y)
  | name {x y : List Char} {e : String × Char} : e ∈ names → Expands names x y →
    Expands names (e.1.toList ++ x) (e.2 :: y)

namespace Expands

variable {x y word : List Char} {e : String × Char} {skip : Nat}

theorem refl (names : List (String × Char)) (x : List Char) : Expands names x x := by
  induction x with
  | nil => exact .nil
  | cons c x ih => exact .keep c ih

theorem of_append (hmarks : ∀ e ∈ names, e.2 ∉ word) (h : Expands names x (word ++ y)) :
    ∃ x', x = word ++ x' ∧ Expands names x' y := by
  induction word generalizing x with
  | nil => exact ⟨x, rfl, h⟩
  | cons c word ih =>
    cases h with
    | keep _ h =>
      obtain ⟨x', rfl, hrest⟩ := ih (fun e he hin => hmarks e he (List.mem_cons_of_mem _ hin)) h
      exact ⟨x', rfl, hrest⟩
    | name he => exact absurd List.mem_cons_self (hmarks _ he)

/-- A name that stands in a text with marks stood in the text before. -/
theorem replaced (he : e ∈ names) (hne : e.1.toList ≠ []) (hmarks : ∀ e' ∈ names, e'.2 ∉ e.1.toList)
    (h : Expands names x (y.drop skip)) :
    Expands names x (Text.replaceFrom e.1.toList [e.2] skip y) := by
  induction y generalizing x skip with
  | nil => cases skip <;> exact h
  | cons c cs ih =>
    cases skip with
    | succ skip => exact ih h
    | zero =>
      rw [Text.replaceFrom]
      split
      · next hhit =>
        obtain ⟨rest, hrest⟩ := (Text.startsWith_iff hne).mp hhit
        rw [List.drop_zero, ← hrest] at h
        obtain ⟨x', rfl, h⟩ := of_append hmarks h
        refine .name he (ih ?_)
        obtain ⟨a, as, ha⟩ := List.exists_cons_of_ne_nil hne
        rw [ha, List.cons_append, List.cons.injEq] at hrest
        rwa [ha, List.length_cons, Nat.add_sub_cancel, ← hrest.2, List.drop_left]
      · cases h with
        | keep _ h => exact .keep c (ih h)
        | name he' h => exact .name he' (ih h)

/-- One name after the other, so that each is replaced in a text with marks. -/
theorem foldl_replaceName {rest : List (String × Char)} (hrest : ∀ e ∈ rest, e ∈ names)
    (hne : ∀ e ∈ names, e.1.toList ≠ []) (hmarks : ∀ e ∈ names, ∀ e' ∈ names, e'.2 ∉ e.1.toList)
    (h : Expands names text.toList (found.getD text.toList)) :
    Expands names text.toList ((rest.foldl (replaceName text) found).getD text.toList) := by
  induction rest generalizing found with
  | nil => exact h
  | cons e rest ih =>
    obtain ⟨he, hrest⟩ := List.forall_mem_cons.mp hrest
    refine ih hrest ?_
    unfold replaceName
    split
    · exact h.replaced he (hne e he) (hmarks e he)
    · exact h

end Expands

theorem expands_expanded (text : String) :
    Expands typedNames text.toList ((expandNames? text).getD text).toList := by
  rw [toList_expanded]
  exact .foldl_replaceName (fun _ he => he) typedNames_nonempty
    (fun e he e' he' => typedNames_unmarked e' he' e he) (.refl _ _)

end Symbol

end FormulaGraph
