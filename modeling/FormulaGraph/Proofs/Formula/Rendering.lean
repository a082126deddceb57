import FormulaGraph.Proofs.Formula.Grammar
import FormulaGraph.Proofs.Typed

/-!
The text of a term reads back as the term. A term is written as nested calls,
and what is written can be read if names are names, numbers are finite and
calls are of functions of the dialect. Terms that are read from text are of
that kind unless a numeral is too large for a number. They are no taller as
nested calls than the formula they were read from, so the limits of the reader
do not stand in the way.
-/

namespace FormulaGraph

open Numeric

variable {n : String}

namespace Numeric

theorem Decimal.isNumeralChar_text (d : Decimal) :
    ∀ c ∈ d.text.toList, Lexeme.isNumeralChar c = true := by
  have digit : ∀ {n : Nat}, ∀ c ∈ (toString n).toList, Lexeme.isNumeralChar c = true := by
    intro n c hc
    change c ∈ n.repr.toList at hc
    rw [Nat.toList_repr] at hc
    exact Lexeme.isNumeralChar_iff.mpr (.inl (isDigit_toDigits c hc))
  unfold text
  split
  · exact digit
  · have ht : (toString (d.digits % Nat.pow 10 (-d.exponent).toNat)).toList =
        Nat.toDigits 10 (d.digits % 10 ^ (-d.exponent).toNat) := Nat.toList_repr
    dsimp only
    rw [ht]
    change ∀ c ∈ String.toList (if d.fraction.isEmpty then _ else _), _
    split
    · exact digit
    · intro c hc
      rw [String.toList_append, String.toList_append, List.mem_append, List.mem_append] at hc
      rcases hc with (hc | hc) | hc
      · exact digit c hc
      · rw [List.mem_singleton.mp hc]
        rfl
      · change c ∈ (String.ofList d.fraction).toList at hc
        rw [String.toList_ofList] at hc
        exact Lexeme.isNumeralChar_iff.mpr (.inl (isDigit_fraction c hc))

theorem Double.isNumber_text {x : Double} (hs : x.negative = false)
    (hx : x.magnitude < Format.infinity .double) : Lexeme.IsNumber x.text.toList := by
  have hchars : ∀ c ∈ x.text.toList, Lexeme.isNumeralChar c = true := by
    unfold text
    rw [if_neg (by simpa [Binary.isNaN] using hx.le), hs, if_neg (by simp),
      if_neg (by simpa [Binary.isInfinite] using hx.ne)]
    split
    · exact List.all_eq_true.mp rfl
    · exact Decimal.isNumeralChar_text _
  refine (Lexeme.isSome_ofText?_iff hchars).mp ?_
  rw [String.ofList_toList, ofText?_text hx.le]
  rfl

end Numeric

namespace Lexeme

variable {lexemes : List Lexeme} {text rest : List Char}

def IsName (cs : List Char) : Prop :=
  ∃ c run, cs = c :: run ∧ isNameStart c = true ∧ ∀ b ∈ run, isNameChar b = true

theorem Lexes.isName (h : Lexes text lexemes) (hn : .name n ∈ lexemes) : IsName n.toList := by
  induction h with
  | nil => cases hn
  | blank _ _ ih => exact ih hn
  | lexeme first _ ih =>
    rcases List.mem_cons.mp hn with rfl | hn
    · cases first with
      | name start chars _ =>
        rw [String.toList_ofList]
        exact ⟨_, _, rfl, start, chars⟩
      | sign spelling _ => cases spelling
    · exact ih hn

theorem isName_of_all {cs : List Char} (hs : cs.head?.any isNameStart = true)
    (hc : cs.tail.all isNameChar = true) : IsName cs := by
  cases cs with
  | nil => cases hs
  | cons c run => exact ⟨c, run, rfl, hs, List.all_eq_true.mp hc⟩

def Parted (rest : List Char) : Prop :=
  ∀ c ∈ rest.head?, isNumeralChar c = false ∧ isNameChar c = false

theorem parted_cons {c : Char} (h : isNumeralChar c = false ∧ isNameChar c = false)
    (rest : List Char) : Parted (c :: rest) := fun _ hb => by cases hb; exact h

theorem Lexes.name (hn : IsName n.toList) (hp : Parted rest) (h : Lexes rest lexemes) :
    Lexes (n.toList ++ rest) (.name n :: lexemes) := by
  obtain ⟨c, run, heq, start, chars⟩ := hn
  have hfirst : Begins (.name (String.ofList (c :: run))) (c :: run) rest :=
    .name start chars fun b hb => (hp b hb).2
  rw [← heq, String.ofList_toList] at hfirst
  exact .lexeme hfirst h

theorem Lexes.numeral {text : String} (hn : IsNumber text.toList) (hp : Parted rest)
    (h : Lexes rest lexemes) : Lexes (text.toList ++ rest) (.numeral text :: lexemes) := by
  have hfirst : Begins (.numeral (String.ofList text.toList)) text.toList rest :=
    .numeral hn fun b hb => (hp b hb).1
  rw [String.ofList_toList] at hfirst
  exact .lexeme hfirst h

theorem Lexes.sign {l : Lexeme} {c : Char} (hs : l.spelling? = some [c]) (hc : c ≠ '*' ∧ c ≠ '/')
    (h : Lexes rest lexemes) : Lexes (c :: rest) (l :: lexemes) := by
  refine Lexes.lexeme (w := [c]) (.sign hs fun l' w' hs' hpre => ?_) h
  rcases spelling?_cases hs' with hone | rfl | rfl
  · exact hone.le
  · exact absurd (List.cons_prefix_cons.mp hpre).1.symm hc.1
  · exact absurd (List.cons_prefix_cons.mp hpre).1.symm hc.2

end Lexeme

theorem Function.isName_name (f : Function) : Lexeme.IsName f.name.toList := by
  cases f <;> exact Lexeme.isName_of_all (by decide +kernel) (by decide +kernel)

namespace Term

mutual

def surface : Term → Surface
  | call f args => .call f.name (surfaces args)
  | name n => .name n
  | constant x => .numeral x.text

def surfaces : List Term → List Surface
  | [] => []
  | x :: xs => x.surface :: surfaces xs

end

mutual

def lexemes : Term → List Lexeme
  | call f args => .name f.name :: .openParen :: lexemesAll args ++ [.closeParen]
  | name n => [.name n]
  | constant x => [.numeral x.text]

def lexemesAll : List Term → List Lexeme
  | [] => []
  | [x] => x.lexemes
  | x :: xs => x.lexemes ++ .comma :: lexemesAll xs

end

mutual

/-- Terms whose text reads back. -/
def Writable (d : Dialect) : Term → Prop
  | call f args => Function.inDialect? f.name d = some f ∧
      f.signature.fault? args.length = none ∧ WritableAll d args
  | name n => Lexeme.IsName n.toList
  | constant x => x.negative = false ∧ x.magnitude < Format.infinity .double

def WritableAll (d : Dialect) : List Term → Prop
  | [] => True
  | x :: xs => x.Writable d ∧ WritableAll d xs

end

section Reading

variable {d : Dialect}

mutual

theorem lexes_text {t : Term} {rest : List Char} {ls : List Lexeme} (ht : t.Writable d)
    (hp : Lexeme.Parted rest) (h : Lexeme.Lexes rest ls) :
    Lexeme.Lexes (t.text.toList ++ rest) (t.lexemes ++ ls) := by
  match t with
  | .name n => exact .name ht hp h
  | .constant x => exact .numeral (Double.isNumber_text ht.1 ht.2) hp h
  | .call f args =>
    have hclose : Lexeme.Lexes (')' :: rest) (.closeParen :: ls) := .sign rfl (by decide) h
    have hopen := Lexeme.Lexes.sign (l := .openParen) rfl (by decide)
      (lexes_textAll ht.2.2 (Lexeme.parted_cons (by decide) rest) hclose)
    have hname := Lexeme.Lexes.name f.isName_name (Lexeme.parted_cons (by decide) _) hopen
    simpa [text, lexemes] using hname

theorem lexes_textAll {ts : List Term} {rest : List Char} {ls : List Lexeme}
    (ht : WritableAll d ts) (hp : Lexeme.Parted rest) (h : Lexeme.Lexes rest ls) :
    Lexeme.Lexes ((textAll ts).toList ++ rest) (lexemesAll ts ++ ls) := by
  match ts with
  | [] => exact h
  | [x] => exact lexes_text ht.1 hp h
  | x :: y :: zs =>
    have hcomma : Lexeme.Lexes (',' :: ' ' :: ((textAll (y :: zs)).toList ++ rest))
        (.comma :: (lexemesAll (y :: zs) ++ ls)) :=
      .sign rfl (by decide) (.blank (.inl rfl) (lexes_textAll ht.2 hp h))
    have hitem := lexes_text ht.1 (Lexeme.parted_cons (by decide) _) hcomma
    simpa [textAll, lexemesAll] using hitem

end

mutual

/-- Nested calls open as many levels as the formula is high. -/
theorem derives_surface (t : Term) : Derives (.atom t.surface) t.lexemes t.surface.height := by
  match t with
  | .name n => exact .name n
  | .constant x => exact .numeral x.text
  | .call f args => exact .call (derives_surfaces args)

theorem derives_surfaces (ts : List Term) :
    Derives (.items (surfaces ts)) (lexemesAll ts) (Surface.heightAll (surfaces ts)) := by
  have item : ∀ t : Term, Derives (.atom t.surface) t.lexemes t.surface.height →
      Derives (.sum t.surface) t.lexemes t.surface.height := fun _ h =>
    .sum (.product (.unary (.power h)))
  match ts with
  | [] => exact .none
  | [x] =>
    have hlast := Derives.last (item x (derives_surface x))
    rwa [← Nat.max_zero x.surface.height] at hlast
  | x :: y :: zs => exact .more (item x (derives_surface x)) (derives_surfaces (y :: zs))

end

theorem length_surfaces (ts : List Term) : (surfaces ts).length = ts.length := by
  induction ts with
  | nil => rfl
  | cons x xs ih => rw [surfaces, List.length_cons, List.length_cons, ih]

mutual

theorem ofSurface_surface {t : Term} (ht : t.Writable d) : ofSurface d t.surface = .ok t := by
  match t with
  | .name n => rfl
  | .constant x =>
    have hread : Double.ofText? x.text = some x := Double.ofText?_text ht.2.le
    simp only [surface, ofSurface, hread]
  | .call f args =>
    have hcheck : checkArity f f.name (surfaces args).length = .ok () := by
      rw [checkArity, length_surfaces, ht.2.1]
    simp only [surface, ofSurface, ht.1, hcheck, ofSurfaces_surfaces ht.2.2, bind, Except.bind]
    rfl

theorem ofSurfaces_surfaces {ts : List Term} (ht : WritableAll d ts) :
    ofSurfaces d (surfaces ts) = .ok ts := by
  match ts with
  | [] => rfl
  | x :: xs =>
    simp only [surfaces, ofSurfaces, ofSurface_surface ht.1, ofSurfaces_surfaces ht.2, bind,
      Except.bind]
    rfl

end

/-- A term that is not too tall is read back from its text. -/
theorem ofText_text {t : Term} (ht : t.Writable d) (hh : t.surface.height ≤ 256) :
    ofText d t.text = .ok t := by
  have hlexes : Lexeme.Lexes (t.text.toList ++ []) (t.lexemes ++ []) :=
    lexes_text ht (fun c hc => by cases hc) .nil
  rw [List.append_nil, List.append_nil] at hlexes
  have hspelled : t.surface.SpelledBy t.text :=
    ⟨_, _, hlexes, .sum (.product (.unary (.power (derives_surface t)))), hh, hh⟩
  unfold ofText Surface.ofText
  rw [Surface.ofText?_eq_some_iff.mpr hspelled]
  exact ofSurface_surface ht

end Reading

section Read

variable {d : Dialect}

/-- Leaves that a term can be written from: names, and numerals of finite
numbers. -/
def Manageable : Lexeme → Prop
  | .name n => Lexeme.IsName n.toList
  | .numeral n => ∀ x, Double.ofText? n = some x →
      x.negative = false ∧ x.magnitude < Format.infinity .double
  | _ => True

theorem inDialect?_name {f : Function} (h : Function.inDialect? n d = some f) :
    Function.inDialect? f.name d = some f := by
  have hname : Function.all.find? (·.name == n) = some f := (Option.filter_eq_some_iff.mp h).1
  rwa [show f.name = n by simpa using List.find?_some hname]

theorem inDialect?_operator (op : Operator) (d : Dialect) :
    Function.inDialect? op.function.name d = some op.function := by
  cases op <;> cases d <;> decide

theorem inDialect?_neg (d : Dialect) : Function.inDialect? Function.neg.name d = some .neg := by
  cases d <;> decide

theorem inDialect?_list {items : List Surface} {t : Term}
    (h : ofSurface d (.list items) = .ok t) :
    Function.inDialect? Function.combixyz.name d = some .combixyz := by
  cases d with
  | vector => decide
  | math => cases h

mutual

/-- A term that is read can be written, in no more levels than it was read from. -/
theorem writable_ofSurface {s : Surface} {t : Term} (hs : ∀ l ∈ s.leaves, Manageable l)
    (h : ofSurface d s = .ok t) : t.Writable d ∧ t.surface.height ≤ s.height := by
  match s with
  | .numeral n =>
    simp only [ofSurface] at h
    split at h
    · next x hx =>
      cases h
      exact ⟨hs _ List.mem_cons_self x hx, Nat.le_refl 1⟩
    · cases h
  | .name n =>
    cases h
    exact ⟨hs (.name n) List.mem_cons_self, Nat.le_refl 1⟩
  | .plus x =>
    have hx : ∀ l ∈ x.leaves, Manageable l := hs
    have h : ofSurface d x = .ok t := h
    obtain ⟨hw, hh⟩ := writable_ofSurface hx h
    exact ⟨hw, Nat.le_succ_of_le hh⟩
  | .negate x =>
    have hx : ∀ l ∈ x.leaves, Manageable l := hs
    obtain ⟨y, hy, rfl⟩ := ofSurface_negate h
    obtain ⟨hw, hh⟩ := writable_ofSurface hx hy
    refine ⟨⟨inDialect?_neg d, rfl, hw, trivial⟩, ?_⟩
    simpa [surface, surfaces, Surface.height, Surface.heightAll] using hh
  | .binary op l r =>
    obtain ⟨l', r', hl, hr, rfl⟩ := ofSurface_binary h
    obtain ⟨hwl, hhl⟩ := writable_ofSurface (fun x hx => hs x (List.mem_append_left _ hx)) hl
    obtain ⟨hwr, hhr⟩ := writable_ofSurface (fun x hx => hs x (List.mem_append_right _ hx)) hr
    refine ⟨⟨inDialect?_operator op d, fault?_operator op, hwl, hwr, trivial⟩, ?_⟩
    simp only [surface, surfaces, Surface.height, Surface.heightAll]
    omega
  | .call n args =>
    obtain ⟨f, terms, hf, hc, ha, rfl⟩ := ofSurface_call h
    obtain ⟨hw, hh⟩ := writable_ofSurfaces (fun x hx => hs x (List.mem_cons_of_mem _ hx)) ha
    refine ⟨⟨inDialect?_name hf, ?_, hw⟩, Nat.succ_le_succ hh⟩
    rw [length_ofSurfaces ha]
    exact fault?_of_checkArity hc
  | .tuple _ => cases h
  | .list items =>
    have hi : ∀ l ∈ Surface.leavesAll items, Manageable l := hs
    have hd := inDialect?_list h
    obtain ⟨terms, hn, ht, rfl⟩ := ofSurface_list h
    obtain ⟨hw, hh⟩ := writable_ofSurfaces hi ht
    refine ⟨⟨hd, ?_, hw⟩, Nat.succ_le_succ hh⟩
    rw [length_ofSurfaces ht, hn]
    rfl

theorem writable_ofSurfaces {items : List Surface} {terms : List Term}
    (hs : ∀ l ∈ Surface.leavesAll items, Manageable l) (h : ofSurfaces d items = .ok terms) :
    WritableAll d terms ∧ Surface.heightAll (surfaces terms) ≤ Surface.heightAll items := by
  match items with
  | [] =>
    cases h
    exact ⟨trivial, Nat.le_refl 0⟩
  | x :: xs =>
    obtain ⟨y, ys, hy, hys, rfl⟩ := ofSurfaces_cons h
    obtain ⟨hw, hh⟩ := writable_ofSurface (fun l hl => hs l (List.mem_append_left _ hl)) hy
    obtain ⟨hws, hhs⟩ := writable_ofSurfaces (fun l hl => hs l (List.mem_append_right _ hl)) hys
    refine ⟨⟨hw, hws⟩, ?_⟩
    simp only [surfaces, Surface.heightAll]
    omega

end

/-- Whether a numeral of the text is too large for a number. -/
def Overflows (text : String) : Prop :=
  ∃ lexemes n, Lexeme.ofText? text = some lexemes ∧ .numeral n ∈ lexemes ∧
    Double.ofText? n = some (.infinity false)

/-- The leaves of a text without such a numeral. -/
theorem manageable_of_ofText? {text : String} {s : Surface} (hs : Surface.ofText? text = some s)
    (ho : ¬Overflows text) : ∀ l ∈ s.leaves, Manageable l := by
  obtain ⟨lexemes, hl, hleaves⟩ := Surface.leaves_of_ofText? hs
  intro l hmem
  rw [hleaves] at hmem
  have hmem : l ∈ lexemes := (List.mem_filter.mp hmem).1
  match l with
  | .name n => exact (Lexeme.ofText?_eq_some_iff.mp hl).isName hmem
  | .numeral n =>
    intro x hx
    have hdigital : ∀ c ∈ n.toList, Lexeme.isNumeralChar c :=
      (Lexeme.ofText?_eq_some_iff.mp hl).digital _ hmem
    have hle := Double.magnitude_le_of_ofText? hdigital hx
    have hsign : x.negative = false := by
      rw [Double.ofText?_numeral hdigital] at hx
      obtain ⟨decimal, -, rfl⟩ := Option.map_eq_some_iff.mp hx
      rw [Double.toDouble_eq_mk]
    refine ⟨hsign, Nat.lt_of_le_of_ne hle fun hinf => ho ⟨lexemes, n, hl, hmem, ?_⟩⟩
    rw [hx, Binary.infinity, ← hsign, ← hinf]
  | .op _ | .openParen | .closeParen | .openBracket | .closeBracket | .comma => trivial

/-- The text of a term that is read reads back as the term, unless a numeral of
the text it was read from is too large for a number. -/
theorem ofText_text_or_overflows {text : String} {t : Term} (h : ofText d text = .ok t) :
    Overflows text ∨ ofText d t.text = .ok t := by
  by_cases ho : Overflows text
  · exact .inl ho
  · obtain ⟨s, hs, ht⟩ := ofText_ok h
    obtain ⟨hw, hh⟩ := writable_ofSurface (manageable_of_ofText? hs ho) ht
    obtain ⟨-, -, -, -, -, hlow⟩ := Surface.ofText?_eq_some_iff.mp hs
    exact .inr (ofText_text hw (hh.trans hlow))

/-- Signs, operators and brackets all become calls. -/
theorem ofText_text_or_overflows_nested :
    ∃ t, ofText .vector "-a**2.50//[.5,b_1,+c]" = .ok t ∧
      t.text = "floordiv(neg(pow(a, 2.5)), combixyz(0.5, b_1, c))" ∧
      ofText .vector "floordiv(neg(pow(a, 2.5)), combixyz(0.5, b_1, c))" = .ok t := by
  have hlexemes : Lexeme.ofText? "-a**2.50//[.5,b_1,+c]" = some [.op .sub, .name "a", .op .pow,
      .numeral "2.50", .op .floorDiv, .openBracket, .numeral ".5", .comma, .name "b_1", .comma,
      .op .add, .name "c", .closeBracket] := by decide +kernel
  have hfinite : ¬Overflows "-a**2.50//[.5,b_1,+c]" := by
    rintro ⟨lexemes, n, hl, hn, hinf⟩
    rw [hlexemes] at hl
    cases hl
    obtain rfl | rfl : n = "2.50" ∨ n = ".5" := by simpa using hn
    · exact absurd hinf (by decide +kernel)
    · exact absurd hinf (by decide +kernel)
  have htext : (ofText .vector "-a**2.50//[.5,b_1,+c]").toOption.map text =
      some "floordiv(neg(pow(a, 2.5)), combixyz(0.5, b_1, c))" := by decide +kernel
  cases ht : ofText .vector "-a**2.50//[.5,b_1,+c]" with
  | error fault =>
    rw [ht] at htext
    cases htext
  | ok t =>
    rw [ht] at htext
    have htext : t.text = "floordiv(neg(pow(a, 2.5)), combixyz(0.5, b_1, c))" :=
      Option.some.inj htext
    refine ⟨t, rfl, htext, ?_⟩
    rw [← htext]
    exact (ofText_text_or_overflows ht).resolve_left hfinite

end Read

end Term

end FormulaGraph
