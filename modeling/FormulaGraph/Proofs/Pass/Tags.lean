import FormulaGraph.Compile
import FormulaGraph.Proofs.Numeric.DecimalText

/-!
Tags can be told apart: by their marks, and those of operations by the
operation and its operands.
-/

namespace FormulaGraph

open Numeric

namespace Tag

def letter? (name : String) : Option Char := name.toList.head?

variable {ms ms' : List String} {op op' : String}

theorem toList_operation (op : String) (markers : List String) :
    (operation op markers).toList =
      'F' :: '|' :: (op.toList ++ '(' ::
        ([','].intercalate (markers.map (·.toList)) ++ [')'])) := by
  simp [operation, functionMark, String.toList_append, String.toList_intercalate]

theorem letter?_operation (op : String) (markers : List String) :
    letter? (operation op markers) = some 'F' := by
  rw [letter?, toList_operation]
  rfl

theorem isTag_operation (op : String) (markers : List String) :
    isTag (operation op markers) = true := by
  rw [isTag, toList_operation]
  rfl

theorem letter?_frame (tag : String) : letter? (frameMark ++ tag) = some 'G' := by
  simp [letter?, frameMark, String.toList_append]

theorem isTag_frame (tag : String) : isTag (frameMark ++ tag) = true := by
  rw [isTag, String.toList_append]
  rfl

theorem letter?_constant (text : String) : letter? (constantMark ++ text) = some 'C' := by
  simp [letter?, constantMark, String.toList_append]

theorem isTag_constant (text : String) : isTag (constantMark ++ text) = true := by
  rw [isTag, String.toList_append]
  rfl

theorem isTag_default (text : String) : isTag (defaultMark ++ text) = true := by
  rw [isTag, String.toList_append]
  rfl

def Plain (marker : String) : Prop := marker.toList ≠ [] ∧ ',' ∉ marker.toList

theorem intercalate_injective (h : ∀ m ∈ ms, Plain m)
    (h' : ∀ m ∈ ms', Plain m)
    (heq : [','].intercalate (ms.map (·.toList)) = [','].intercalate (ms'.map (·.toList))) :
    ms = ms' := by
  have split : ∀ {l : List String}, (∀ m ∈ l, Plain m) → l ≠ [] →
      ([','].intercalate (l.map (·.toList))).splitOn ',' = l.map (·.toList) := by
    intro l hl hne
    refine List.splitOn_intercalate ',' ?_ (by simpa using hne)
    intro cs hcs
    obtain ⟨m, hm, rfl⟩ := List.mem_map.mp hcs
    exact (hl m hm).2
  have empty : ∀ {l : List String}, (∀ m ∈ l, Plain m) → l ≠ [] →
      [','].intercalate (l.map (·.toList)) ≠ [] := by
    intro l hl hne hc
    have := split hl hne
    rw [hc, List.splitOn_nil] at this
    cases l with
    | nil => exact hne rfl
    | cons m l =>
      rw [List.map_cons] at this
      exact (hl m List.mem_cons_self).1 (List.cons.inj this).1.symm
  have nil : [','].intercalate (([] : List String).map (·.toList)) = [] := rfl
  by_cases hms : ms = [] <;> by_cases hms' : ms' = []
  · rw [hms, hms']
  · rw [hms, nil] at heq
    exact absurd heq.symm (empty h' hms')
  · rw [hms', nil] at heq
    exact absurd heq (empty h hms)
  · have hmap : ms.map (·.toList) = ms'.map (·.toList) := by
      rw [← split h hms, heq, split h' hms']
    exact List.map_injective_iff.mpr (fun _ _ => String.toList_inj.mp) hmap

theorem op_injective (hop : '(' ∉ op.toList)
    (hop' : '(' ∉ op'.toList) (h : operation op ms = operation op' ms') : op = op' := by
  have hlist := congrArg String.toList h
  rw [toList_operation, toList_operation] at hlist
  have hrest := (List.cons.inj (List.cons.inj hlist).2).2
  have head : ∀ {o : String} {r : List Char}, '(' ∉ o.toList →
      (o.toList ++ '(' :: r).takeWhile (· != '(') = o.toList := by
    intro o r ho
    rw [List.takeWhile_append_of_pos, List.takeWhile_cons_of_neg (by simp), List.append_nil]
    intro c hc
    have : c ≠ '(' := fun hc' => ho (hc' ▸ hc)
    simpa using this
  rw [← String.toList_inj, ← head hop, hrest, head hop']

/-- The tag of an operation tells the operation and the markers. -/
theorem operation_injective (hop : '(' ∉ op.toList)
    (hop' : '(' ∉ op'.toList) (hms : ∀ m ∈ ms, Plain m) (hms' : ∀ m ∈ ms', Plain m)
    (h : operation op ms = operation op' ms') : op = op' ∧ ms = ms' := by
  have hopEq := op_injective hop hop' h
  subst hopEq
  have hlist := congrArg String.toList h
  rw [toList_operation, toList_operation] at hlist
  have hrest := List.append_cancel_left (List.cons.inj (List.cons.inj hlist).2).2
  exact ⟨rfl, intercalate_injective hms hms' (List.append_cancel_right (List.cons.inj hrest).2)⟩

def IsSeparation (tag : String) : Prop := ∃ markers, tag = operation "sepaxyz" markers

end Tag

namespace Function

theorem mem_all (f : Function) : f ∈ all := by cases f <;> decide

theorem no_bracket_name (f : Function) : '(' ∉ f.name.toList := by
  have : ∀ f ∈ all, '(' ∉ f.name.toList := by decide
  exact this f f.mem_all

theorem name_injective {f g : Function} (h : f.name = g.name) : f = g := by
  have : ∀ f ∈ all, ∀ g ∈ all, f.name = g.name → f = g := by decide +kernel
  exact this f f.mem_all g g.mem_all h

theorem name_ne_sepaxyz (f : Function) : f.name ≠ "sepaxyz" := by
  have : ∀ f ∈ all, f.name ≠ "sepaxyz" := by decide
  exact this f f.mem_all

end Function

def numbered (c : Char) (n : Nat) : String := c.toString ++ toString n

variable {c : Char}

theorem toList_numbered (c : Char) (n : Nat) : (numbered c n).toList = c :: Nat.toDigits 10 n := by
  rw [numbered, String.toList_append]
  have : (toString n).toList = Nat.toDigits 10 n := Nat.toList_repr
  rw [this]
  simp

theorem numbered_injective {c' : Char} {n n' : Nat} (h : numbered c n = numbered c' n') :
    c = c' ∧ n = n' := by
  have hlist := congrArg String.toList h
  rw [toList_numbered, toList_numbered] at hlist
  obtain ⟨hc, hd⟩ := List.cons.inj hlist
  refine ⟨hc, ?_⟩
  rw [← digitsValue_toDigits n, hd, digitsValue_toDigits]

theorem plain_numbered (hc : c ≠ ',') (n : Nat) : Tag.Plain (numbered c n) := by
  refine ⟨by rw [toList_numbered]; simp, ?_⟩
  rw [toList_numbered, List.mem_cons, not_or]
  refine ⟨hc.symm, fun hm => ?_⟩
  have := isDigit_toDigits _ hm
  simp [Char.isDigit] at this

theorem Kind.letter_injective {k k' : Kind} (h : k.letter = k'.letter) : k = k' := by
  cases k <;> cases k' <;> first | rfl | (revert h; decide)

theorem Kind.letter_ne (k : Kind) : k.letter ≠ ',' ∧ k.letter ≠ 'p' := by
  cases k <;> decide

theorem Handle.marker_eq (h : Handle) : h.marker = numbered h.kind.letter h.number := rfl

namespace Pass

/-- What the markers of operands are, literals numbered from the given place on. -/
theorem plain_markers {operands : List Operand} {literals : Nat} :
    ∀ m ∈ (markers literals operands).1, Tag.Plain m := by
  induction operands generalizing literals with
  | nil => simp [markers]
  | cons operand rest ih =>
    cases operand with
    | handle h =>
      intro m hm
      rcases List.mem_cons.mp hm with rfl | hm
      · exact plain_numbered h.kind.letter_ne.1 h.number
      · exact ih m hm
    | literal l =>
      intro m hm
      rcases List.mem_cons.mp hm with rfl | hm
      · exact plain_numbered (c := 'p') (by decide) literals
      · exact ih m hm

theorem not_isSeparation (f : Function) (ms : List String) :
    ¬Tag.IsSeparation (Tag.operation f.name ms) := by
  rintro ⟨ms', h⟩
  exact f.name_ne_sepaxyz (Tag.op_injective f.no_bracket_name (by decide) h)

end Pass

end FormulaGraph
