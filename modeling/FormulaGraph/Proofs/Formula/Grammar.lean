import FormulaGraph.Proofs.Formula.Lexing

/-!
The agreement of the grammar of formulas with the reader. What the reader accepts
is derived, and what the grammar derives within the limits is read.
-/

namespace FormulaGraph

namespace Reader

variable {level : Level} {op : Operator} {closing : Lexeme} {x : Surface} {xs : List Surface}
  {ls rest rs : List Lexeme} {s n N m limit height levels : Nat} {parsed left : Parsed}
  {a b : Nat} {y : Surface} {l : Lexeme}

theorem atop?_of_le (h : height + 1 ≤ levelLimit) : atop? height = some (height + 1) := by
  unfold atop?
  rw [if_neg (by omega)]

theorem operators?_of_stops (h : Stops s left.rest) :
    operators? level s limit left = some left := by
  cases limit with
  | zero => rfl
  | succ limit =>
    unfold operators?
    split
    · next op rest hrest => rw [if_pos (h op (by rw [hrest]; rfl))]
    · rfl

theorem operators?_of_op (hrest : left.rest = .op op :: rest) (hs : s ≤ op.strength) :
    operators? level s (limit + 1) left =
      (level op.rightStrength rest).bind fun right =>
        (atop? (max left.height right.height)).bind fun height =>
          operators? level s limit ⟨.binary op left.tree right.tree, height, right.rest⟩ := by
  rw [operators?, hrest]
  dsimp only
  rw [if_neg (Nat.not_lt.mpr hs)]
  rfl

theorem stops_or (s : Nat) (rest : List Lexeme) :
    Stops s rest ∨ ∃ op tail, rest = .op op :: tail ∧ s ≤ op.strength := by
  by_cases h : Stops s rest
  · exact .inl h
  · simp only [Stops, not_forall, Nat.not_lt] at h
    obtain ⟨op, hop, hs⟩ := h
    obtain ⟨tail, htail⟩ := List.head?_eq_some_iff.mp hop
    exact .inr ⟨op, tail, htail, hs⟩

/-- More room than there are lexemes makes no difference. -/
theorem operators?_congr (hl : level.Sound N) (ha : left.rest.length ≤ a)
    (hb : left.rest.length ≤ b) :
    operators? level s a left = operators? level s b left := by
  induction a generalizing b left with
  | zero =>
    have hnil : left.rest = [] := List.length_eq_zero_iff.mp (Nat.le_zero.mp ha)
    have hstops : Stops s left.rest := fun op hop => by
      rw [hnil] at hop
      cases hop
    rw [operators?_of_stops hstops, operators?_of_stops hstops]
  | succ a ih =>
    rcases stops_or s left.rest with hstops | ⟨op, tail, hrest, hs⟩
    · rw [operators?_of_stops hstops, operators?_of_stops hstops]
    · rw [hrest, List.length_cons] at ha hb
      obtain ⟨b, rfl⟩ := Nat.exists_eq_add_of_le' (Nat.le_trans (Nat.le_add_left 1 _) hb)
      rw [operators?_of_op hrest hs, operators?_of_op hrest hs]
      refine Option.bind_congr fun right hr => Option.bind_congr fun height _ => ?_
      obtain ⟨vs, k, hvs, -⟩ := (hl (rightStrength_le op) hr).1.derived
      rw [hvs, List.length_append] at ha hb
      exact ih (show right.rest.length ≤ a by omega) (show right.rest.length ≤ b by omega)

def goOn (level : Level) (strength : Nat) (left : Parsed) : Option Parsed :=
  operators? level strength left.rest.length left

theorem goOn_of_stops (h : Stops s left.rest) :
    goOn level s left = some left := operators?_of_stops h

theorem goOn_of_op (hl : level.Sound N) {vs : List Lexeme} (hs : s ≤ op.strength)
    (hr : level op.rightStrength (vs ++ rest) = some ⟨y, y.height, rest⟩)
    (hlow : (Surface.binary op x y).height ≤ levelLimit) :
    goOn level s ⟨x, x.height, .op op :: (vs ++ rest)⟩ =
      goOn level s ⟨.binary op x y, (Surface.binary op x y).height, rest⟩ := by
  unfold goOn
  rw [Surface.height] at hlow ⊢
  rw [show (Lexeme.op op :: (vs ++ rest)).length = (vs ++ rest).length + 1 from rfl,
    operators?_of_op rfl hs, hr, Option.bind_some, atop?_of_le hlow, Option.bind_some]
  refine operators?_congr hl ?_ (Nat.le_refl _)
  rw [List.length_append]
  exact Nat.le_add_left _ _

/-- What may come after an operand that is read up to operators of a strength:
no stronger operator, and no parenthesis that would make a name a call. -/
structure Ends (strength : Nat) (rest : List Lexeme) : Prop where
  stops : Stops strength rest
  apart : rest.head? ≠ some .openParen

theorem Ends.separator (h : l ∈ [.comma, .closeParen, .closeBracket]) {strength : Nat} :
    Ends strength (l :: rest) := by
  simp only [List.mem_cons, List.not_mem_nil, or_false] at h
  rcases h with rfl | rfl | rfl <;> exact ⟨by simp [Stops], by simp⟩

/-- A level reads the lexemes of an operand, before what may come after it, and
goes on from there. -/
def Read (strongest stop : Nat) (x : Surface) (ls : List Lexeme) (n : Nat) : Prop :=
  ∀ levels s rest, n ≤ levels + 1 → s ≤ strongest → x.height ≤ levelLimit → Ends stop rest →
    Reader.level (levels + 1) s (ls ++ rest) = goOn (Reader.level levels) s ⟨x, x.height, rest⟩

def IsRead (ls : List Lexeme) (n : Nat) : Phrase → Prop
  | .sum x => Read 10 11 x ls n
  | .product x => Read 20 21 x ls n
  | .unary x | .power x => Read 40 40 x ls n
  | .atom x => ∀ levels rest, n ≤ levels + 1 → x.height ≤ levelLimit →
      rest.head? ≠ some .openParen →
        operand? (Reader.level levels) (ls ++ rest) = some ⟨x, x.height, rest⟩
  | .items xs => ∀ levels limit closing rest, n ≤ levels → ls.length < limit →
      closing = .closeParen ∨ closing = .closeBracket → Surface.heightAll xs ≤ levelLimit →
        items? (Reader.level levels) closing limit (ls ++ closing :: rest) =
          some ⟨xs, Surface.heightAll xs, rest⟩

theorem Stops.mono {s' : Nat} (h : Stops s rest) (hs : s ≤ s') : Stops s' rest :=
  fun op hop => Nat.lt_of_lt_of_le (h op hop) hs

theorem level_of_operand (ls : List Lexeme)
    (h : operand? (Reader.level levels) (ls ++ rest) = some parsed) :
    Reader.level (levels + 1) s (ls ++ rest) = goOn (Reader.level levels) s parsed := by
  show (operand? (Reader.level levels) (ls ++ rest)).bind _ = _
  rw [h]
  rfl

theorem Read.alone (h : Read a b x ls n) (rest : List Lexeme) (hn : 1 ≤ n)
    (hlevels : n ≤ levels) (hs : s ≤ a) (hlow : x.height ≤ levelLimit) (hends : Ends b rest)
    (hstops : Stops s rest) :
    Reader.level levels s (ls ++ rest) = some ⟨x, x.height, rest⟩ := by
  obtain ⟨levels, rfl⟩ := Nat.exists_eq_add_of_le' (Nat.le_trans hn hlevels)
  rw [h levels s rest hlevels hs hlow hends, goOn_of_stops hstops]

theorem Read.binary {c d : Nat} (op : Operator) (left : Read a b x ls m)
    (right : Read c d y rs n) (hn : 1 ≤ n) (ha : op.strength ≤ a) (hb : op.strength < b)
    (hc : op.rightStrength ≤ c) (hd : op.rightStrength ≤ d) :
    Read op.strength op.rightStrength (.binary op x y) (ls ++ .op op :: rs) (max m (n + 1)) := by
  intro levels s rest hlevels hs hlow hends
  obtain ⟨hm, hn'⟩ := Nat.max_le.mp hlevels
  have hheight : x.height ≤ levelLimit ∧ y.height ≤ levelLimit := by
    rw [Surface.height] at hlow
    omega
  have hright : Reader.level levels op.rightStrength (rs ++ rest) = some ⟨y, y.height, rest⟩ :=
    right.alone rest hn (Nat.le_of_succ_le_succ hn') hc hheight.2 ⟨hends.stops.mono hd, hends.apart⟩
      hends.stops
  have hnext : Ends b (.op op :: (rs ++ rest)) := by
    refine ⟨fun op' hop => ?_, by simp⟩
    cases hop
    exact hb
  rw [List.append_assoc, List.cons_append,
    left levels s _ hm (Nat.le_trans hs ha) hheight.1 hnext,
    goOn_of_op (level_sound levels) hs hright hlow]

theorem read_of_atom (h : IsRead ls n (.atom x)) : Read 40 41 x ls n := by
  intro levels s rest hlevels _ hlow hends
  exact level_of_operand ls (h levels rest hlevels hlow hends.apart)

theorem itemsTo?_of_isRead (h : IsRead ls n (.items xs)) (hlevels : n ≤ levels)
    (hclosing : closing = .closeParen ∨ closing = .closeBracket)
    (hlow : Surface.heightAll xs ≤ levelLimit) :
    itemsTo? (Reader.level levels) closing (ls ++ closing :: rest) =
      some ⟨xs, Surface.heightAll xs, rest⟩ := by
  refine h levels _ closing rest hlevels ?_ hclosing hlow
  rw [List.length_append]
  omega

/-- Parentheses that are not closed at once. -/
theorem atom?_parentheses {tail : List Lexeme} (h : l ≠ .closeParen) :
    atom? level (.openParen :: l :: tail) = (level 0 (l :: tail)).bind fun first =>
      match first.rest with
      | .comma :: rest => (itemsTo? level .closeParen rest).bind fun more =>
        (atop? (max first.height more.height)).bind fun height =>
          some ⟨.tuple (first.tree :: more.items), height, more.rest⟩
      | .closeParen :: rest => some ⟨first.tree, first.height, rest⟩
      | _ => none := by
  cases l with
  | closeParen => exact absurd rfl h
  | _ => rfl

theorem isRead_parentheses (h : Derives (.sum x) ls n) (hr : Read 10 11 x ls n) :
    IsRead (.openParen :: ls ++ [.closeParen]) (n + 1) (.atom x) := by
  intro levels rest hlevels hlow _
  obtain ⟨hn, l, tail, rfl, hl, -⟩ := h.opens.resolve_left (by simp)
  have hread := hr.alone (.closeParen :: rest) hn (Nat.le_of_succ_le_succ hlevels)
    (Nat.zero_le 10) hlow (.separator (by simp)) (Ends.separator (by simp)).stops
  rw [List.cons_append] at hread
  show atom? _ (.openParen :: l :: (tail ++ [.closeParen] ++ rest)) = _
  rw [atom?_parentheses hl, List.append_assoc, List.singleton_append, hread]
  rfl

theorem isRead_tuple (h : Derives (.sum x) ls m) (hr : Read 10 11 x ls m)
    (hitems : IsRead rs n (.items xs)) :
    IsRead (.openParen :: ls ++ .comma :: rs ++ [.closeParen]) (max m n + 1)
      (.atom (.tuple (x :: xs))) := by
  intro levels rest hlevels hlow _
  obtain ⟨hm, l, tail, rfl, hl, -⟩ := h.opens.resolve_left (by simp)
  obtain ⟨hm', hn'⟩ := Nat.max_le.mp (Nat.le_of_succ_le_succ hlevels)
  have hheight : x.height ≤ levelLimit ∧ Surface.heightAll xs ≤ levelLimit := by
    rw [Surface.height, Surface.heightAll] at hlow
    omega
  have hread := hr.alone (.comma :: (rs ++ .closeParen :: rest)) hm hm'
    (Nat.zero_le 10) hheight.1 (.separator (by simp)) (Ends.separator (by simp)).stops
  have hlist : .openParen :: (l :: tail) ++ .comma :: rs ++ [.closeParen] ++ rest =
      .openParen :: l :: (tail ++ .comma :: (rs ++ .closeParen :: rest)) := by simp
  rw [List.cons_append] at hread
  rw [hlist]
  show atom? _ (.openParen :: l :: _) = _
  rw [atom?_parentheses hl, hread, Option.bind_some]
  dsimp only
  rw [itemsTo?_of_isRead hitems hn' (.inl rfl) hheight.2, Option.bind_some, Surface.height,
    Surface.heightAll, atop?_of_le (by rwa [Surface.height, Surface.heightAll] at hlow)]
  rfl

theorem isRead_last (h : Derives (.sum x) ls n) (hr : Read 10 11 x ls n) :
    IsRead ls n (.items [x]) := by
  intro levels limit closing rest hlevels hlimit hclosing hlow
  obtain ⟨hn, l, tail, rfl, hparen, hbracket⟩ := h.opens.resolve_left (by simp)
  obtain ⟨limit, rfl⟩ := Nat.exists_eq_add_of_le' (Nat.zero_lt_of_lt hlimit)
  have hheight : Surface.heightAll [x] = x.height := Nat.max_zero _
  rw [hheight] at hlow ⊢
  have hends : ∀ s, Ends s (closing :: rest) := fun s =>
    .separator (by rcases hclosing with rfl | rfl <;> simp)
  have hhead : (l :: tail ++ closing :: rest).head? ≠ some closing := by
    rcases hclosing with rfl | rfl <;> simp [hparen, hbracket]
  have hread := hr.alone (closing :: rest) hn hlevels (Nat.zero_le 10) hlow (hends _)
    (hends 0).stops
  unfold items?
  rw [if_neg hhead, hread]
  rcases hclosing with rfl | rfl <;> rfl

theorem isRead_more (h : Derives (.sum x) ls m) (hr : Read 10 11 x ls m)
    (hitems : IsRead rs n (.items xs)) :
    IsRead (ls ++ .comma :: rs) (max m n) (.items (x :: xs)) := by
  intro levels limit closing rest hlevels hlimit hclosing hlow
  obtain ⟨hm, l, tail, rfl, hparen, hbracket⟩ := h.opens.resolve_left (by simp)
  obtain ⟨limit, rfl⟩ := Nat.exists_eq_add_of_le' (Nat.zero_lt_of_lt hlimit)
  obtain ⟨hm', hn'⟩ := Nat.max_le.mp hlevels
  have hheight : x.height ≤ levelLimit ∧ Surface.heightAll xs ≤ levelLimit := by
    rw [Surface.heightAll] at hlow
    omega
  have hlist : l :: tail ++ .comma :: rs ++ closing :: rest =
      l :: tail ++ .comma :: (rs ++ closing :: rest) := by simp
  have hhead : (l :: tail ++ .comma :: (rs ++ closing :: rest)).head? ≠ some closing := by
    rcases hclosing with rfl | rfl <;> simp [hparen, hbracket]
  have hread := hr.alone (.comma :: (rs ++ closing :: rest)) hm hm' (Nat.zero_le 10)
    hheight.1 (.separator (by simp)) (Ends.separator (by simp)).stops
  have hmore := hitems levels limit closing rest hn' (by
    simp only [List.length_append, List.length_cons] at hlimit
    omega) hclosing hheight.2
  rw [hlist]
  unfold items?
  rw [if_neg hhead, hread]
  show (items? (Reader.level levels) closing limit (rs ++ closing :: rest) >>= _) = _
  rw [hmore]
  rfl

theorem isRead_signed {sign : Surface → Surface}
    (hsign : ∀ (level : Level) (ls : List Lexeme), operand? level (.op op :: ls) =
      (level 40 ls).bind fun x => (atop? x.height).bind fun height =>
        some ⟨sign x.tree, height, x.rest⟩)
    (hheight : (sign x).height = x.height + 1) (h : Derives (.unary x) ls n)
    (hr : Read 40 40 x ls n) : IsRead (.op op :: ls) (n + 1) (.unary (sign x)) := by
  intro levels s rest hlevels _ hlow hends
  rw [hheight] at hlow ⊢
  refine level_of_operand (.op op :: ls) ?_
  rw [List.cons_append, hsign, hr.alone rest (h.opens.resolve_left (by simp)).1
    (Nat.le_of_succ_le_succ hlevels) (Nat.le_refl 40) (Nat.le_of_succ_le hlow) hends hends.stops,
    Option.bind_some]
  dsimp only
  rw [atop?_of_le hlow]
  rfl

theorem isRead_enclosed (opening : List Lexeme)
    {build : List Surface → Surface}
    (hatom : ∀ (level : Level) (ls : List Lexeme), operand? level (opening ++ ls) =
      (itemsTo? level closing ls).bind fun found => (atop? found.height).bind fun height =>
        some ⟨build found.items, height, found.rest⟩)
    (hclosing : closing = .closeParen ∨ closing = .closeBracket)
    (hheight : (build xs).height = Surface.heightAll xs + 1) (hitems : IsRead ls n (.items xs)) :
    IsRead (opening ++ ls ++ [closing]) (n + 1) (.atom (build xs)) := by
  intro levels rest hlevels hlow _
  rw [hheight] at hlow ⊢
  rw [List.append_assoc, List.append_assoc, List.singleton_append, hatom,
    itemsTo?_of_isRead hitems (Nat.le_of_succ_le_succ hlevels) hclosing (Nat.le_of_succ_le hlow),
    Option.bind_some]
  dsimp only
  rw [atop?_of_le hlow]
  rfl

/-- What the grammar derives is read where there are enough levels. -/
theorem isRead_of_derives {phrase : Phrase} (h : Derives phrase ls n) : IsRead ls n phrase := by
  induction h with
  | sum _ ih =>
    intro levels s rest hlevels hs hlow hends
    exact ih levels s rest hlevels (by omega) hlow ⟨hends.stops.mono (by decide), hends.apart⟩
  | @addition op _ _ _ _ _ _ loose _ right ihl ihr =>
    have hop : op.strength = 10 ∧ op.rightStrength = 11 := by
      rcases loose with rfl | rfl <;> exact ⟨rfl, rfl⟩
    have hread := Read.binary op ihl ihr (right.opens.resolve_left (by simp)).1 (by omega)
      (by omega)
      (by omega) (by omega)
    rwa [hop.1, hop.2] at hread
  | product _ ih =>
    intro levels s rest hlevels hs hlow hends
    exact ih levels s rest hlevels (by omega) hlow ⟨hends.stops.mono (by decide), hends.apart⟩
  | @multiplication op _ _ _ _ _ _ tight _ right ihl ihr =>
    have hop : op.strength = 20 ∧ op.rightStrength = 21 := by
      rcases tight with rfl | rfl | rfl | rfl <;> exact ⟨rfl, rfl⟩
    have hread := Read.binary op ihl ihr (right.opens.resolve_left (by simp)).1 (by omega)
      (by omega)
      (by omega) (by omega)
    rwa [hop.1, hop.2] at hread
  | negation operand ih => exact isRead_signed (fun _ _ => rfl) rfl operand ih
  | affirmation operand ih => exact isRead_signed (fun _ _ => rfl) rfl operand ih
  | unary _ ih => exact ih
  | power _ ih =>
    intro levels s rest hlevels hs hlow hends
    exact read_of_atom ih levels s rest hlevels hs hlow
      ⟨hends.stops.mono (by decide), hends.apart⟩
  | exponentiation _ right ihl ihr =>
    exact Read.binary .pow (read_of_atom ihl) ihr (right.opens.resolve_left (by simp)).1 (by decide)
      (by decide) (by decide) (by decide)
  | numeral text => exact fun _ _ _ _ _ => rfl
  | name text =>
    intro levels rest _ _ hnext
    cases rest with
    | nil => rfl
    | cons l rest =>
      cases l with
      | openParen => exact absurd rfl hnext
      | _ => rfl
  | @call f _ _ _ _ ih =>
    exact isRead_enclosed [.name f, .openParen] (fun _ _ => rfl) (.inl rfl) rfl ih
  | parentheses content ih => exact isRead_parentheses content ih
  | unit => exact fun _ _ _ _ _ => rfl
  | tuple first _ ihf ihm => exact isRead_tuple first ihf ihm
  | list _ ih => exact isRead_enclosed [.openBracket] (fun _ _ => rfl) (.inr rfl) rfl ih
  | none =>
    intro levels limit closing rest _ hlimit _ _
    obtain ⟨limit, rfl⟩ := Nat.exists_eq_add_of_le' (Nat.zero_lt_of_lt hlimit)
    exact if_pos rfl
  | last item ih => exact isRead_last item ih
  | more item _ ihi ihr => exact isRead_more item ihi ihr

end Reader

/-- A text spells a formula if its lexemes derive it, with at most 256 levels
open at once, and the formula is at most 256 high. -/
def Surface.SpelledBy (x : Surface) (text : String) : Prop :=
  ∃ lexemes levels, Lexeme.Lexes text.toList lexemes ∧ Derives (.sum x) lexemes levels ∧
    levels ≤ 256 ∧ x.height ≤ 256

theorem Surface.ofText?_eq_some_iff {text : String} {x : Surface} :
    ofText? text = some x ↔ x.SpelledBy text := by
  constructor
  · intro h
    obtain ⟨lexemes, hl, h⟩ := Option.bind_eq_some_iff.mp h
    obtain ⟨parsed, hp, h⟩ := Option.bind_eq_some_iff.mp h
    obtain ⟨⟨hheight, hlow, ls, n, hls, hn, hd⟩, -⟩ :=
      Reader.level_sound Reader.levelLimit (Nat.zero_le 40) hp
    split at h
    · next hempty =>
      cases h
      rw [List.isEmpty_iff.mp hempty, List.append_nil] at hls
      exact ⟨lexemes, n, Lexeme.ofText?_eq_some_iff.mp hl, hls ▸ hd, hn, hheight ▸ hlow⟩
    · cases h
  · rintro ⟨lexemes, n, hl, hd, hn, hlow⟩
    have hread := (Reader.isRead_of_derives hd).alone (s := 0) []
      (hd.opens.resolve_left (by simp)).1 hn (Nat.zero_le 10) hlow ⟨nofun, nofun⟩ nofun
    rw [List.append_nil] at hread
    unfold ofText?
    rw [Lexeme.ofText?_eq_some_iff.mpr hl]
    show (Reader.level 256 0 lexemes).bind _ = _
    rw [hread]
    rfl

/-- Reading a text gives the formula that it spells, and where it spells none
the fault names the whole text. -/
theorem Surface.ofText_iff_spelledBy (text : String) :
    (∀ x, ofText text = .ok x ↔ x.SpelledBy text) ∧
      (ofText text = .error (.unreadable text) ↔ ¬∃ x : Surface, x.SpelledBy text) ∧
      (Fault.unreadable text).faultClass = .syntactic ∧
      (Fault.unreadable text).message = "Math Expression Not Recognized: '" ++ text ++ "'" := by
  have hread : ∀ x : Surface, x.SpelledBy text ↔ ofText? text = some x := fun x =>
    ofText?_eq_some_iff.symm
  simp only [hread]
  unfold ofText
  cases ofText? text with
  | some y => exact ⟨fun x => by simp, by simp, rfl, rfl⟩
  | none => exact ⟨fun x => by simp, by simp, rfl, rfl⟩

example : ["-a**-b*c", "f((a,),[b,],())", "a--b//c%d", "1.2.3", "f(,)"].map
    (fun text => (Surface.ofText? text).map Surface.text) =
      [some "(* (neg (** a (neg b))) c)", some "(call f (tuple a) (list b) (tuple))",
        some "(- a (% (// (neg b) c) d))", none, none] := by
  decide +kernel

end FormulaGraph
