import FormulaGraph.Formula.Term
import FormulaGraph.Proofs.Formula.Derivation

/-!
The leaves of formulas: their numerals and names, where a called name counts as
a leaf. Reading a formula keeps the leaves of its lexemes in order, and its term
keeps the names that are not called.
-/

namespace FormulaGraph

namespace Lexeme

def isLeaf : Lexeme → Bool
  | numeral _ | name _ => true
  | _ => false

def leaves (lexemes : List Lexeme) : List Lexeme := lexemes.filter isLeaf

@[simp] theorem leaves_nil : leaves [] = [] := rfl

@[simp] theorem leaves_append (ls rs : List Lexeme) : leaves (ls ++ rs) = leaves ls ++ leaves rs :=
  List.filter_append ls rs

@[simp] theorem leaves_cons (l : Lexeme) (ls : List Lexeme) :
    leaves (l :: ls) = if l.isLeaf then l :: leaves ls else leaves ls := List.filter_cons

end Lexeme

namespace Surface

mutual

def leaves : Surface → List Lexeme
  | numeral text => [.numeral text]
  | name text => [.name text]
  | negate x | plus x => x.leaves
  | binary _ l r => l.leaves ++ r.leaves
  | call f items => .name f :: leavesAll items
  | tuple items | list items => leavesAll items

def leavesAll : List Surface → List Lexeme
  | [] => []
  | x :: xs => x.leaves ++ leavesAll xs

end

end Surface

def Phrase.leaves : Phrase → List Lexeme
  | sum x | product x | unary x | power x | atom x => x.leaves
  | items xs => Surface.leavesAll xs

theorem Derives.leaves {phrase : Phrase} {ls : List Lexeme} {n : Nat} (h : Derives phrase ls n) :
    Lexeme.leaves ls = phrase.leaves := by
  induction h with
  | sum _ ih | product _ ih | unary _ ih | power _ ih => exact ih
  | _ => simp_all [Phrase.leaves, Surface.leaves, Surface.leavesAll, Lexeme.isLeaf]

theorem Surface.leaves_of_ofText? {text : String} {surface : Surface}
    (h : ofText? text = some surface) :
    ∃ lexemes, Lexeme.ofText? text = some lexemes ∧ surface.leaves = Lexeme.leaves lexemes := by
  obtain ⟨lexemes, hl, h⟩ := Option.bind_eq_some_iff.mp h
  obtain ⟨parsed, hp, h⟩ := Option.bind_eq_some_iff.mp h
  split at h
  · next hempty =>
    cases h
    refine ⟨lexemes, hl, ?_⟩
    obtain ⟨⟨-, -, ls, n, hls, -, hd⟩, -⟩ := Reader.level_sound _ (Nat.zero_le 40) hp
    rw [hls, List.isEmpty_iff.mp hempty, List.append_nil]
    exact hd.leaves.symm
  · cases h

namespace Term

variable {dialect : Dialect} {term : Term}

theorem mem_names {n : String} : n ∈ term.names ↔ n ∈ term.occurrences := by
  have collect : ∀ (seen occurrences : List String),
      n ∈ occurrences.foldl (fun seen n => if seen.contains n then seen else seen ++ [n]) seen ↔
        n ∈ seen ∨ n ∈ occurrences := by
    intro seen occurrences
    induction occurrences generalizing seen with
    | nil => simp
    | cons m rest ih =>
      rw [List.foldl_cons, ih]
      by_cases hm : m ∈ seen
      · rw [if_pos (by simpa using hm), List.mem_cons]
        constructor
        · exact Or.imp_right .inr
        · rintro (h | rfl | h)
          · exact .inl h
          · exact .inl hm
          · exact .inr h
      · rw [if_neg (by simpa using hm), List.mem_append, List.mem_singleton, List.mem_cons,
          or_assoc]
  simpa [names] using collect [] term.occurrences

/-! A formula with a term, by its form. -/

theorem ofSurface_negate {x : Surface} (h : ofSurface dialect (.negate x) = .ok term) :
    ∃ y, ofSurface dialect x = .ok y ∧ term = call .neg [y] := by
  simp only [ofSurface, bind, Except.bind] at h
  split at h
  · cases h
  · next y hy =>
    cases h
    exact ⟨y, hy, rfl⟩

theorem ofSurface_binary {op : Operator} {l r : Surface}
    (h : ofSurface dialect (.binary op l r) = .ok term) :
    ∃ l' r', ofSurface dialect l = .ok l' ∧ ofSurface dialect r = .ok r' ∧
      term = call op.function [l', r'] := by
  simp only [ofSurface, bind, Except.bind] at h
  split at h
  · cases h
  · next l' hl =>
    split at h
    · cases h
    · next r' hr =>
      cases h
      exact ⟨l', r', hl, hr, rfl⟩

theorem ofSurface_call {n : String} {args : List Surface}
    (h : ofSurface dialect (.call n args) = .ok term) :
    ∃ f terms, Function.inDialect? n dialect = some f ∧ checkArity f n args.length = .ok () ∧
      ofSurfaces dialect args = .ok terms ∧ term = call f terms := by
  simp only [ofSurface, bind, Except.bind] at h
  split at h
  · cases h
  · next f hf =>
    split at h
    · cases h
    · next hc =>
      split at h
      · cases h
      · next terms ha =>
        cases h
        exact ⟨f, terms, hf, hc, ha, rfl⟩

theorem ofSurface_list {items : List Surface} (h : ofSurface dialect (.list items) = .ok term) :
    ∃ terms, items.length = 3 ∧ ofSurfaces dialect items = .ok terms ∧
      term = call .combixyz terms := by
  simp only [ofSurface, bind, Except.bind] at h
  split at h
  · cases h
  · split at h
    · cases h
    · next hn =>
      split at h
      · cases h
      · next terms hi =>
        cases h
        exact ⟨terms, Decidable.not_not.mp hn, hi, rfl⟩

theorem ofSurfaces_cons {x : Surface} {xs : List Surface} {terms : List Term}
    (h : ofSurfaces dialect (x :: xs) = .ok terms) :
    ∃ y ys, ofSurface dialect x = .ok y ∧ ofSurfaces dialect xs = .ok ys ∧ terms = y :: ys := by
  simp only [ofSurfaces, bind, Except.bind] at h
  split at h
  · cases h
  · next y hy =>
    split at h
    · cases h
    · next ys hys =>
      cases h
      exact ⟨y, ys, hy, hys, rfl⟩

theorem ofText_ok {text : String} (h : ofText dialect text = .ok term) :
    ∃ surface, Surface.ofText? text = some surface ∧ ofSurface dialect surface = .ok term := by
  simp only [ofText, Surface.ofText, bind, Except.bind] at h
  split at h
  · cases h
  · next surface hs =>
    split at hs
    · next hp =>
      cases hs
      exact ⟨_, hp, h⟩
    · cases hs

mutual

/-- The names of a term are leaves of its formula, and a name among the leaves
is one of them or that of a function that is called. -/
theorem name_mem_leaves {surface : Surface} {term : Term} {n : String}
    (h : ofSurface dialect surface = .ok term) :
    (n ∈ term.occurrences → .name n ∈ surface.leaves) ∧
      (.name n ∈ surface.leaves →
        n ∈ term.occurrences ∨ (Function.inDialect? n dialect).isSome = true) := by
  match surface with
  | .numeral text =>
    simp only [ofSurface] at h
    split at h
    · cases h
      simp [occurrences, Surface.leaves]
    · cases h
  | .name m =>
    cases h
    simp only [occurrences, Surface.leaves, List.mem_singleton, Lexeme.name.injEq]
    exact ⟨id, .inl⟩
  | .plus x =>
    have h : ofSurface dialect x = .ok term := h
    have hx := name_mem_leaves (n := n) h
    exact hx
  | .negate x =>
    obtain ⟨y, hy, rfl⟩ := ofSurface_negate h
    simpa [occurrences, occurrencesAll, Surface.leaves] using name_mem_leaves hy
  | .binary op l r =>
    obtain ⟨l', r', hl, hr, rfl⟩ := ofSurface_binary h
    have hl' := name_mem_leaves (n := n) hl
    have hr' := name_mem_leaves (n := n) hr
    simp only [occurrences, occurrencesAll, Surface.leaves, List.mem_append, List.append_nil]
    exact ⟨fun hm => hm.imp hl'.1 hr'.1, fun hm => by
      rcases hm with hm | hm
      · exact (hl'.2 hm).imp_left .inl
      · exact (hr'.2 hm).imp_left .inr⟩
  | .call m args =>
    obtain ⟨f, terms, hf, -, ha, rfl⟩ := ofSurface_call h
    have hargs := name_mem_leavesAll (n := n) ha
    simp only [occurrences, Surface.leaves, List.mem_cons, Lexeme.name.injEq]
    refine ⟨fun hm => .inr (hargs.1 hm), ?_⟩
    rintro (rfl | hm)
    · exact .inr (by rw [hf]; rfl)
    · exact hargs.2 hm
  | .tuple _ => cases h
  | .list items =>
    obtain ⟨terms, -, hi, rfl⟩ := ofSurface_list h
    have hitems := name_mem_leavesAll (n := n) hi
    exact hitems

theorem name_mem_leavesAll {items : List Surface} {terms : List Term} {n : String}
    (h : ofSurfaces dialect items = .ok terms) :
    (n ∈ occurrencesAll terms → .name n ∈ Surface.leavesAll items) ∧
      (.name n ∈ Surface.leavesAll items →
        n ∈ occurrencesAll terms ∨ (Function.inDialect? n dialect).isSome = true) := by
  match items with
  | [] =>
    cases h
    simp [occurrencesAll, Surface.leavesAll]
  | x :: xs =>
    obtain ⟨y, ys, hy, hys, rfl⟩ := ofSurfaces_cons h
    have hx := name_mem_leaves (n := n) hy
    have hxs := name_mem_leavesAll (n := n) hys
    simp only [occurrencesAll, Surface.leavesAll, List.mem_append]
    exact ⟨fun hm => hm.imp hx.1 hxs.1, fun hm => by
      rcases hm with hm | hm
      · exact (hx.2 hm).imp_left .inl
      · exact (hxs.2 hm).imp_left .inr⟩

end

end Term

end FormulaGraph
