import FormulaGraph.Formula.Reader
import Mathlib.Data.List.Basic

/-!
The grammar of formulas, in strata by how tightly operators bind. What the
reader accepts, which knows strengths only, is derived by the grammar: an operand
is followed to the place where the reader stops.
-/

namespace FormulaGraph

/-- What lexemes may form together. -/
inductive Phrase where
  | sum (x : Surface)
  | product (x : Surface)
  | unary (x : Surface)
  | power (x : Surface)
  | atom (x : Surface)
  | items (xs : List Surface)

/-- The lexemes of a phrase, with the number of levels that are open at once
while they are read. An operand of a sign, a right operand, the content of
parentheses and an item each open a level; a left operand does not. -/
inductive Derives : Phrase → List Lexeme → Nat → Prop where
  -- sum = product (('+' | '-') product)*
  | sum {x : Surface} {ls : List Lexeme} {n : Nat} (product : Derives (.product x) ls n) :
      Derives (.sum x) ls n
  | addition {op : Operator} {x y : Surface} {ls rs : List Lexeme} {m n : Nat}
      (loose : op = .add ∨ op = .sub)
      (left : Derives (.sum x) ls m) (right : Derives (.product y) rs n) :
      Derives (.sum (.binary op x y)) (ls ++ .op op :: rs) (max m (n + 1))
  -- product = unary (('*' | '/' | '//' | '%') unary)*
  | product {x : Surface} {ls : List Lexeme} {n : Nat} (unary : Derives (.unary x) ls n) :
      Derives (.product x) ls n
  | multiplication {op : Operator} {x y : Surface} {ls rs : List Lexeme} {m n : Nat}
      (tight : op = .mul ∨ op = .div ∨ op = .floorDiv ∨ op = .mod)
      (left : Derives (.product x) ls m) (right : Derives (.unary y) rs n) :
      Derives (.product (.binary op x y)) (ls ++ .op op :: rs) (max m (n + 1))
  -- unary = ('-' | '+') unary | power
  | negation {x : Surface} {ls : List Lexeme} {n : Nat} (operand : Derives (.unary x) ls n) :
      Derives (.unary (.negate x)) (.op .sub :: ls) (n + 1)
  | affirmation {x : Surface} {ls : List Lexeme} {n : Nat} (operand : Derives (.unary x) ls n) :
      Derives (.unary (.plus x)) (.op .add :: ls) (n + 1)
  | unary {x : Surface} {ls : List Lexeme} {n : Nat} (power : Derives (.power x) ls n) :
      Derives (.unary x) ls n
  -- power = atom ['**' unary]
  | power {x : Surface} {ls : List Lexeme} {n : Nat} (atom : Derives (.atom x) ls n) :
      Derives (.power x) ls n
  | exponentiation {x y : Surface} {ls rs : List Lexeme} {m n : Nat}
      (base : Derives (.atom x) ls m) (exponent : Derives (.unary y) rs n) :
      Derives (.power (.binary .pow x y)) (ls ++ .op .pow :: rs) (max m (n + 1))
  -- atom = numeral | name | name '(' items ')' | '(' sum ')' | '()' | '(' sum ',' items ')'
  --   | '[' items ']'
  | numeral (text : String) : Derives (.atom (.numeral text)) [.numeral text] 1
  | name (text : String) : Derives (.atom (.name text)) [.name text] 1
  | call {f : String} {xs : List Surface} {ls : List Lexeme} {n : Nat}
      (args : Derives (.items xs) ls n) :
      Derives (.atom (.call f xs)) (.name f :: .openParen :: ls ++ [.closeParen]) (n + 1)
  | parentheses {x : Surface} {ls : List Lexeme} {n : Nat} (content : Derives (.sum x) ls n) :
      Derives (.atom x) (.openParen :: ls ++ [.closeParen]) (n + 1)
  | unit : Derives (.atom (.tuple [])) [.openParen, .closeParen] 1
  | tuple {x : Surface} {xs : List Surface} {ls rs : List Lexeme} {m n : Nat}
      (first : Derives (.sum x) ls m) (more : Derives (.items xs) rs n) :
      Derives (.atom (.tuple (x :: xs))) (.openParen :: ls ++ .comma :: rs ++ [.closeParen])
        (max m n + 1)
  | list {xs : List Surface} {ls : List Lexeme} {n : Nat} (items : Derives (.items xs) ls n) :
      Derives (.atom (.list xs)) (.openBracket :: ls ++ [.closeBracket]) (n + 1)
  -- items = [sum [',' items]]
  | none : Derives (.items []) [] 0
  | last {x : Surface} {ls : List Lexeme} {n : Nat} (item : Derives (.sum x) ls n) :
      Derives (.items [x]) ls n
  | more {x : Surface} {xs : List Surface} {ls rs : List Lexeme} {m n : Nat}
      (item : Derives (.sum x) ls m) (rest : Derives (.items xs) rs n) :
      Derives (.items (x :: xs)) (ls ++ .comma :: rs) (max m n)

/-- A formula takes a level, and no closing sign stands first in it. -/
theorem Derives.opens {phrase : Phrase} {ls : List Lexeme} {n : Nat} (h : Derives phrase ls n) :
    (∃ xs, phrase = .items xs) ∨
      1 ≤ n ∧ ∃ l tail, ls = l :: tail ∧ l ≠ .closeParen ∧ l ≠ .closeBracket := by
  have binary : ∀ {us vs : List Lexeme} {op : Operator} {m k : Nat},
      1 ≤ m ∧ (∃ l tail, us = l :: tail ∧ l ≠ .closeParen ∧ l ≠ .closeBracket) →
        1 ≤ max m (k + 1) ∧
          ∃ l tail, us ++ .op op :: vs = l :: tail ∧ l ≠ .closeParen ∧ l ≠ .closeBracket := by
    rintro us vs op m k ⟨hm, l, tail, rfl, hl⟩
    exact ⟨Nat.le_trans hm (Nat.le_max_left m _), l, _, rfl, hl⟩
  induction h with
  | sum _ ih | product _ ih | unary _ ih | power _ ih => exact .inr (ih.resolve_left nofun)
  | addition _ _ _ ih _ | multiplication _ _ _ ih _ | exponentiation _ _ ih _ =>
    exact .inr (binary (ih.resolve_left nofun))
  | negation _ _ | affirmation _ _ =>
    exact .inr ⟨Nat.le_add_left 1 _, _, _, rfl, nofun, nofun⟩
  | numeral _ | name _ | unit => exact .inr ⟨Nat.le_refl 1, _, _, rfl, nofun, nofun⟩
  | call _ _ | parentheses _ _ | tuple _ _ _ _ | list _ _ =>
    exact .inr ⟨Nat.le_add_left 1 _, _, _, rfl, nofun, nofun⟩
  | none | last _ _ | more _ _ _ _ => exact .inl ⟨_, rfl⟩

namespace Reader

variable {level : Level} {op : Operator} {closing : Lexeme} {x : Surface} {xs : List Surface}
  {ls rest rs : List Lexeme} {s n N m limit height levels : Nat} {parsed left : Parsed}

def Stops (strength : Nat) (rest : List Lexeme) : Prop :=
  ∀ op, rest.head? = some (.op op) → op.strength < strength

/-- The stratum whose operators have at least the given strength. -/
def stratum (strength : Nat) (x : Surface) : Phrase :=
  if strength ≤ 10 then .sum x else if strength ≤ 20 then .product x else .unary x

structure Parsed.Fits (phrase : Surface → Phrase) (levels : Nat) (lexemes : List Lexeme)
    (parsed : Parsed) : Prop where
  height : parsed.height = parsed.tree.height
  low : parsed.height ≤ levelLimit
  derived : ∃ ls n, lexemes = ls ++ parsed.rest ∧ n ≤ levels ∧ Derives (phrase parsed.tree) ls n

/-- A level that reads what the grammar derives, as far as it goes. -/
def Level.Sound (levels : Nat) (level : Level) : Prop :=
  ∀ {strength lexemes parsed}, strength ≤ 40 → level strength lexemes = some parsed →
    parsed.Fits (stratum strength) levels lexemes ∧ Stops strength parsed.rest

theorem one_le_levelLimit : 1 ≤ levelLimit := by decide

theorem atop?_eq_some {h : Nat} (hp : atop? height = some h) : h = height + 1 ∧ h ≤ levelLimit := by
  unfold atop? at hp
  split at hp
  · cases hp
  · cases hp
    omega

theorem items?_sound (hl : level.Sound N) {found : ParsedItems}
    (hp : items? level closing limit ls = some found) :
    found.height = Surface.heightAll found.items ∧ found.height ≤ levelLimit ∧
      ∃ us n, ls = us ++ closing :: found.rest ∧ n ≤ N ∧ Derives (.items found.items) us n := by
  induction limit generalizing ls found with
  | zero => cases hp
  | succ limit ih =>
    unfold items? at hp
    split at hp
    · next hhead =>
      cases hp
      obtain ⟨rest, rfl⟩ := List.head?_eq_some_iff.mp hhead
      exact ⟨rfl, Nat.zero_le _, [], 0, rfl, Nat.zero_le _, .none⟩
    · obtain ⟨item, hi, hp⟩ := Option.bind_eq_some_iff.mp hp
      obtain ⟨⟨hheight, hlow, us, m, hls, hm, hitem⟩, -⟩ := hl (Nat.zero_le 40) hi
      split at hp
      · next rest hrest =>
        obtain ⟨more, hmore, hp⟩ := Option.bind_eq_some_iff.mp hp
        cases hp
        obtain ⟨hheight', hlow', vs, k, rfl, hk, hitems⟩ := ih hmore
        refine ⟨?_, Nat.max_le.mpr ⟨hlow, hlow'⟩, us ++ .comma :: vs, max m k, ?_,
          Nat.max_le.mpr ⟨hm, hk⟩, .more hitem hitems⟩
        · rw [Surface.heightAll, ← hheight, ← hheight']
        · rw [hls, hrest]
          simp
      · next lexeme rest _ hrest =>
        split at hp
        · next heq =>
          cases hp
          subst heq
          refine ⟨?_, hlow, us, m, by rw [hls, hrest], hm, .last hitem⟩
          rw [Surface.heightAll, Surface.heightAll, Nat.max_zero]
          exact hheight
        · cases hp
      · cases hp

theorem atom?_sound (hl : level.Sound N) (hp : atom? level ls = some parsed) :
    parsed.Fits .atom (N + 1) ls := by
  have enclosed : ∀ (opening : List Lexeme) {closing : Lexeme} {build : List Surface → Surface}
      {rest : List Lexeme}, (itemsTo? level closing rest).bind (fun found =>
        (atop? found.height).bind fun height =>
          some (⟨build found.items, height, found.rest⟩ : Parsed)) = some parsed →
      (∀ xs, (build xs).height = Surface.heightAll xs + 1) →
      (∀ {xs us n}, Derives (.items xs) us n →
        Derives (.atom (build xs)) (opening ++ us ++ [closing]) (n + 1)) →
        parsed.Fits .atom (N + 1) (opening ++ rest) := by
    intro opening closing build rest hp hbuild hderives
    obtain ⟨found, hf, hp⟩ := Option.bind_eq_some_iff.mp hp
    obtain ⟨height, hh, hp⟩ := Option.bind_eq_some_iff.mp hp
    cases hp
    obtain ⟨rfl, hlow⟩ := atop?_eq_some hh
    obtain ⟨hheight, -, us, n, rfl, hn, hitems⟩ := items?_sound hl hf
    refine ⟨?_, hlow, _, n + 1, ?_, Nat.succ_le_succ hn, hderives hitems⟩
    · rw [hbuild, ← hheight]
    · simp
  unfold atom? at hp
  split at hp
  · cases hp
    exact ⟨rfl, one_le_levelLimit, _, 1, rfl, Nat.le_add_left 1 N, .numeral _⟩
  · exact enclosed [.name _, .openParen] hp (fun _ => rfl) .call
  · cases hp
    exact ⟨rfl, one_le_levelLimit, _, 1, rfl, Nat.le_add_left 1 N, .name _⟩
  · cases hp
    exact ⟨rfl, one_le_levelLimit, _, 1, rfl, Nat.le_add_left 1 N, .unit⟩
  · obtain ⟨first, hf, hp⟩ := Option.bind_eq_some_iff.mp hp
    obtain ⟨⟨hheight, hlow, us, m, hls, hm, hfirst⟩, -⟩ := hl (Nat.zero_le 40) hf
    split at hp
    · next rest hrest =>
      obtain ⟨more, hmore, hp⟩ := Option.bind_eq_some_iff.mp hp
      obtain ⟨height, hh, hp⟩ := Option.bind_eq_some_iff.mp hp
      cases hp
      obtain ⟨rfl, hlow'⟩ := atop?_eq_some hh
      obtain ⟨hheight', -, vs, n, rfl, hn, hitems⟩ := items?_sound hl hmore
      refine ⟨?_, hlow', _, max m n + 1, ?_, Nat.succ_le_succ (Nat.max_le.mpr ⟨hm, hn⟩),
        .tuple hfirst hitems⟩
      · rw [Surface.height, Surface.heightAll, ← hheight, ← hheight']
      · rw [hls, hrest]
        simp
    · next rest hrest =>
      cases hp
      refine ⟨hheight, hlow, _, m + 1, ?_, Nat.succ_le_succ hm, .parentheses hfirst⟩
      rw [hls, hrest]
      simp
    · cases hp
  · exact enclosed [.openBracket] hp (fun _ => rfl) .list
  · cases hp

/-- A left operand that has been read, by the strata that it can belong to. The
operators that come next are no stronger than its own. -/
inductive Parsed.Left (strength levels : Nat) (lexemes : List Lexeme) (parsed : Parsed) : Prop where
  | atom (fits : parsed.Fits .atom levels lexemes)
  | unary (fits : parsed.Fits .unary levels lexemes) (stops : Stops 40 parsed.rest)
  | product (fits : parsed.Fits .product levels lexemes) (stops : Stops 21 parsed.rest)
      (weak : strength ≤ 20)
  | sum (fits : parsed.Fits .sum levels lexemes) (stops : Stops 11 parsed.rest)
      (weak : strength ≤ 10)

/-- The strata hold one another. -/
theorem Parsed.Left.fits (h : parsed.Left s levels ls) : parsed.Fits (stratum s) levels ls := by
  have lift : ∀ {phrase : Surface → Phrase}, parsed.Fits phrase levels ls →
      (∀ {us n}, Derives (phrase parsed.tree) us n → Derives (stratum s parsed.tree) us n) →
        parsed.Fits (stratum s) levels ls := by
    rintro phrase ⟨hheight, hlow, us, n, hls, hn, hd⟩ hlift
    exact ⟨hheight, hlow, us, n, hls, hn, hlift hd⟩
  have unary : ∀ {us n}, Derives (.unary parsed.tree) us n →
      Derives (stratum s parsed.tree) us n := by
    intro us n hd
    unfold stratum
    split
    · exact .sum (.product hd)
    · split
      · exact .product hd
      · exact hd
  cases h with
  | atom fits => exact lift fits fun hd => unary (.unary (.power hd))
  | unary fits _ => exact lift fits unary
  | product fits _ weak =>
    refine lift fits fun hd => ?_
    unfold stratum
    split
    · exact .sum hd
    · exact hd
  | sum fits _ weak =>
    refine lift fits fun hd => ?_
    unfold stratum
    rwa [if_pos weak]

theorem operand?_sound (hl : level.Sound N) (hp : operand? level ls = some parsed) :
    parsed.Left s (N + 1) ls := by
  have signed : ∀ {op : Operator} {sign : Surface → Surface} {rest : List Lexeme},
      (level 40 rest).bind (fun x => (atop? x.height).bind fun height =>
        some (⟨sign x.tree, height, x.rest⟩ : Parsed)) = some parsed →
      (∀ x, (sign x).height = x.height + 1) →
      (∀ {x us n}, Derives (.unary x) us n → Derives (.unary (sign x)) (.op op :: us) (n + 1)) →
        parsed.Left s (N + 1) (.op op :: rest) := by
    intro op sign rest hp hsign hderives
    obtain ⟨x, hx, hp⟩ := Option.bind_eq_some_iff.mp hp
    obtain ⟨height, hh, hp⟩ := Option.bind_eq_some_iff.mp hp
    cases hp
    obtain ⟨rfl, hlow⟩ := atop?_eq_some hh
    obtain ⟨⟨hheight, -, us, n, rfl, hn, hd⟩, hstops⟩ := hl (Nat.le_refl 40) hx
    refine .unary ⟨?_, hlow, _, n + 1, rfl, Nat.succ_le_succ hn, hderives hd⟩ hstops
    rw [hsign, ← hheight]
  unfold operand? at hp
  split at hp
  · exact signed hp (fun _ => rfl) .negation
  · exact signed hp (fun _ => rfl) .affirmation
  · exact .atom (atom?_sound hl hp)

/-- One more operator: a left operand of any stratum that its strength allows
becomes one of the stratum of the operator. -/
theorem Parsed.Left.step {right : Parsed} (h : left.Left s (N + 1) ls)
    (hrest : left.rest = .op op :: rest) (hs : s ≤ op.strength)
    (hr : right.Fits (stratum op.rightStrength) N rest) (hstops : Stops op.rightStrength right.rest)
    (hh : atop? (max left.height right.height) = some height) :
    (⟨.binary op left.tree right.tree, height, right.rest⟩ : Parsed).Left s (N + 1) ls := by
  obtain ⟨rfl, hlow⟩ := atop?_eq_some hh
  obtain ⟨hrheight, -, vs, k, rfl, hk, hright⟩ := hr
  have head : left.rest.head? = some (.op op) := by rw [hrest]; rfl
  have binary : ∀ {l r : Surface → Phrase}, left.Fits l (N + 1) ls →
      (∀ {us m}, Derives (l left.tree) us m → Derives (r (.binary op left.tree right.tree))
        (us ++ .op op :: vs) (max m (k + 1))) →
      (⟨.binary op left.tree right.tree, max left.height right.height + 1, right.rest⟩ :
        Parsed).Fits r (N + 1) ls := by
    rintro l r ⟨hheight, -, us, m, hls, hm, hd⟩ hstep
    refine ⟨?_, hlow, _, _, ?_, Nat.max_le.mpr ⟨hm, Nat.succ_le_succ hk⟩, hstep hd⟩
    · rw [Surface.height, ← hheight, ← hrheight]
    · rw [hls, hrest]
      simp
  cases op with
  | pow =>
    refine .unary ?_ hstops
    cases h with
    | atom fits => exact binary fits fun hd => .unary (.exponentiation hd hright)
    | unary _ stops => exact absurd (stops _ head) (by decide)
    | product _ stops _ => exact absurd (stops _ head) (by decide)
    | sum _ stops _ => exact absurd (stops _ head) (by decide)
  | mul | div | floorDiv | mod =>
    refine .product ?_ hstops hs
    cases h with
    | atom fits =>
      exact binary fits fun hd => .multiplication (by decide) (.product (.unary (.power hd))) hright
    | unary fits _ => exact binary fits fun hd => .multiplication (by decide) (.product hd) hright
    | product fits _ _ => exact binary fits fun hd => .multiplication (by decide) hd hright
    | sum _ stops _ => exact absurd (stops _ head) (by decide)
  | add | sub =>
    refine .sum ?_ hstops hs
    cases h with
    | atom fits =>
      exact binary fits fun hd =>
        .addition (by decide) (.sum (.product (.unary (.power hd)))) hright
    | unary fits _ => exact binary fits fun hd => .addition (by decide) (.sum (.product hd)) hright
    | product fits _ _ => exact binary fits fun hd => .addition (by decide) (.sum hd) hright
    | sum fits _ _ => exact binary fits fun hd => .addition (by decide) hd hright

theorem rightStrength_le (op : Operator) : op.rightStrength ≤ 40 := by
  cases op <;> decide

/-- The operators that follow a left operand, when there is room for them all. -/
theorem operators?_sound (hl : level.Sound N) (h : left.Left s (N + 1) ls)
    (hlimit : left.rest.length ≤ limit) (hp : operators? level s limit left = some parsed) :
    parsed.Left s (N + 1) ls ∧ Stops s parsed.rest := by
  induction limit generalizing left with
  | zero =>
    cases hp
    refine ⟨h, fun op hop => ?_⟩
    rw [List.length_eq_zero_iff.mp (Nat.le_zero.mp hlimit)] at hop
    cases hop
  | succ limit ih =>
    unfold operators? at hp
    split at hp
    · next op rest hrest =>
      split at hp
      · next hweak =>
        cases hp
        refine ⟨h, fun op' hop => ?_⟩
        rw [hrest] at hop
        cases hop
        exact hweak
      · next hstrong =>
        obtain ⟨right, hr, hp⟩ := Option.bind_eq_some_iff.mp hp
        obtain ⟨height, hh, hp⟩ := Option.bind_eq_some_iff.mp hp
        obtain ⟨hfits, hstops⟩ := hl (rightStrength_le op) hr
        refine ih (h.step hrest (Nat.le_of_not_lt hstrong) hfits hstops hh) ?_ hp
        obtain ⟨vs, k, hvs, -⟩ := hfits.derived
        have hlength : left.rest.length = vs.length + right.rest.length + 1 := by
          rw [hrest, hvs, List.length_cons, List.length_append]
        show right.rest.length ≤ limit
        omega
    · next hnone =>
      cases hp
      refine ⟨h, fun op hop => ?_⟩
      obtain ⟨rest, hrest⟩ := List.head?_eq_some_iff.mp hop
      exact absurd hrest (hnone op rest)

/-- What a level reads is derived, and it stops where it should. -/
theorem level_sound (levels : Nat) : (Reader.level levels).Sound levels := by
  induction levels with
  | zero =>
    intro strength lexemes parsed _ hp
    cases hp
  | succ levels ih =>
    intro strength lexemes parsed _ hp
    unfold Reader.level at hp
    obtain ⟨left, hleft, hp⟩ := Option.bind_eq_some_iff.mp hp
    obtain ⟨hparsed, hstops⟩ := operators?_sound ih (operand?_sound ih hleft) (Nat.le_refl _) hp
    exact ⟨hparsed.fits, hstops⟩

end Reader

end FormulaGraph
