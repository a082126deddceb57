import FormulaGraph.Settings.Standard
import Mathlib.Data.List.Forall2
import Mathlib.Data.List.TakeWhile

/-!
Options survive their settings text, in every format that writes records by the
grammar below and reads what is so written. The standard format does.
-/

namespace FormulaGraph

namespace Settings

section Grammar

/-- How a character is spelled between quotes. -/
inductive Spells : Char → List Char → Prop where
  | plain {c : Char} : c ≠ '"' → c ≠ '\\' → Spells c [c]
  | short {c e : Char} : (c, e) ∈ [('\x00', '0'), ('\t', 't'), ('\n', 'n'), ('\r', 'r'),
      ('\'', '\''), ('"', '"'), ('\\', '\\')] → Spells c ['\\', e]
  | code (c : Char) :
      Spells c (['\\', 'u', '\x7b'] ++ hexText c.toNat ++ ['\x7d'])

def IsQuoted (s : String) (w : List Char) : Prop :=
  ∃ spelt, List.Forall₂ Spells s.toList spelt ∧ w = '"' :: (spelt.flatten ++ ['"'])

def IsBlank (w : List Char) : Prop := ∀ c ∈ w, c ∈ [' ', '\t', '\n', '\r']

/-- Items in order, each with a comma behind it. -/
inductive Listed {α : Type} (item : α → List Char → Prop) : List α → List Char → Prop where
  | nil {w : List Char} : IsBlank w → Listed item [] w
  | cons {a : α} {rest : List α} {w v more : List Char} : IsBlank w → item a v →
      Listed item rest more → Listed item (a :: rest) (w ++ (v ++ ',' :: more))

def IsEntry (key value : List Char → Prop) (w : List Char) : Prop :=
  ∃ k blank v, key k ∧ IsBlank blank ∧ value v ∧ w = k ++ ':' :: (blank ++ v)

def IsKindEntry (e : String × Kind) : List Char → Prop :=
  IsEntry (IsQuoted e.1) (· = e.2.name.toList)

def IsValue : Setting → List Char → Prop
  | .dialect d => (· = d.name.toList)
  | .algebraic b | .expandNames b | .constantNodes b => (· = (toString b).toList)
  | .outputName s => IsQuoted s
  | .variableKinds entries => fun w =>
    ∃ v, Listed IsKindEntry entries v ∧ w = '\x7b' :: (v ++ ['\x7d'])

def IsField (s : Setting) : List Char → Prop := IsEntry (· = s.field.toList) (IsValue s)

/-- A settings text of a record with the given fields. -/
def IsRecord (settings : List Setting) (text : String) : Prop :=
  ∃ w, Listed IsField settings w ∧ text.toList = '(' :: (w ++ [')'])

end Grammar

end Settings

/-- What is relied on of a format: every record of different fields is written
by the grammar, and every record so written is read as its fields. -/
structure SettingsFormat.Lawful (f : SettingsFormat) : Prop where
  writes : ∀ settings : List Setting, (settings.map Setting.field).Nodup →
    ∃ text, f.write settings = some text ∧ Settings.IsRecord settings text
  reads : ∀ settings text, Settings.IsRecord settings text → f.read text = some settings

namespace Ordered

variable {α : Type} {key : String} {value : α} {entries : List (String × α)}

theorem put_of_notMem (h : key ∉ entries.map Prod.fst) :
    put key value entries = entries ++ [(key, value)] := by
  induction entries with
  | nil => rfl
  | cons entry rest ih =>
    obtain ⟨k, v⟩ := entry
    rw [List.map_cons, List.mem_cons, not_or] at h
    rw [put, if_neg (Ne.symm h.1), ih h.2, List.cons_append]

theorem entries_insertAll {m : Ordered α} {more : List (String × α)}
    (h : ((m.entries ++ more).map Prod.fst).Nodup) :
    (m.insertAll more).entries = m.entries ++ more := by
  induction more generalizing m with
  | nil => exact (List.append_nil _).symm
  | cons e more ih =>
    have hnew : e.1 ∉ m.entries.map Prod.fst := by
      intro hmem
      rw [List.map_append, List.nodup_append] at h
      exact h.2.2 e.1 hmem e.1 (by simp) rfl
    have hput : (m.insert e.1 e.2).entries = m.entries ++ [e] := put_of_notMem hnew
    have hnext := ih (m := m.insert e.1 e.2) (by rw [hput]; simpa using h)
    rw [hput, List.append_assoc] at hnext
    exact hnext

theorem insertAll_entries (m : Ordered α) : empty.insertAll m.entries = m := by
  have hentries : (empty.insertAll m.entries).entries = _ := entries_insertAll m.nodup
  obtain ⟨entries, nodup⟩ := m
  generalize hn : empty.insertAll entries = n at hentries
  obtain ⟨entries', nodup'⟩ := n
  cases hentries
  rfl

end Ordered

namespace Options

theorem nodup_settings (o : Options) : (o.settings.map Setting.field).Nodup := by
  change ["variant", "algebraic", "macros", "constant_nodes", "output_name",
    "variable_kinds"].Nodup
  decide

theorem ofSettings?_settings (o : Options) : ofSettings? o.settings = some o := by
  have hfold : o.settings.foldl Setting.apply {} =
      { o with variableKinds := Ordered.empty.insertAll o.variableKinds.entries } := rfl
  rw [ofSettings?, if_pos o.nodup_settings, hfold, Ordered.insertAll_entries]

end Options

namespace Settings

variable {α β : Type} {c : Char} {w rest : List Char}

section Hexadecimal

theorem exists_hexDigits (n : Nat) : ∃ values : List Nat, (∀ v ∈ values, v < 16) ∧
    hexText n = values.map Nat.digitChar ∧ values.foldl (16 * · + ·) 0 = n := by
  unfold hexText
  induction n using Nat.strong_induction_on with
  | _ n ih =>
    by_cases hn : n < 16
    · exact ⟨[n], by simpa using hn, Nat.toDigits_of_lt_base hn, by simp⟩
    · obtain ⟨values, hlow, htext, hfold⟩ := ih (n / 16) (by omega)
      refine ⟨values ++ [n % 16], ?_, ?_, ?_⟩
      · intro v hv
        rcases List.mem_append.mp hv with hv | hv
        · exact hlow v hv
        · rw [List.mem_singleton.mp hv]
          exact Nat.mod_lt n (by decide)
      · rw [Nat.toDigits_of_base_le (by decide) (by omega), htext, List.map_append]
        rfl
      · rw [List.foldl_append, hfold]
        exact Nat.div_add_mod n 16

theorem mapM_hexValue? {values : List Nat} (h : ∀ v ∈ values, v < 16) :
    (values.map Nat.digitChar).mapM hexValue? = some values := by
  have digit : ∀ v < 16, hexValue? v.digitChar = some v := by decide
  induction values with
  | nil => rfl
  | cons v values ih =>
    obtain ⟨hv, hvalues⟩ := List.forall_mem_cons.mp h
    rw [List.map_cons, List.mapM_cons, digit v hv, ih hvalues]
    rfl

theorem takeWhile_hexText (n : Nat) (rest : List Char) :
    (hexText n ++ '\x7d' :: rest).takeWhile (· != '\x7d') = hexText n := by
  have digit : ∀ v < 16, (v.digitChar != '\x7d') = true := by decide
  obtain ⟨values, hlow, htext, -⟩ := exists_hexDigits n
  have hdigits : ∀ c ∈ hexText n, (c != '\x7d') = true := by
    intro c hc
    rw [htext] at hc
    obtain ⟨v, hv, rfl⟩ := List.mem_map.mp hc
    exact digit v (hlow v hv)
  rw [List.takeWhile_append_of_pos hdigits]
  simp

theorem length_hexText (c : Char) :
    0 < (hexText c.toNat).length ∧ (hexText c.toNat).length ≤ 6 := by
  have hlow : c.toNat < 0x110000 := by
    rcases c.valid with h | h
    · exact Nat.lt_trans h (by decide)
    · exact h.2
  refine ⟨Nat.length_toDigits_pos, ?_⟩
  exact (Nat.length_toDigits_le_iff (by decide) (by decide)).mpr (Nat.lt_trans hlow (by decide))

theorem charOfCode?_toNat (c : Char) : charOfCode? c.toNat = some c := by
  have hvalid : c.toNat.isValidChar := c.valid
  unfold charOfCode?
  rw [if_pos hvalid, Char.ofNat_toNat]

/-- A code point in braces is the character that has it. -/
theorem codeEscape?_hexText (c : Char) (rest : List Char) :
    codeEscape? ('\x7b' :: (hexText c.toNat ++ '\x7d' :: rest)) =
      some (c, (hexText c.toNat).length + 2) := by
  obtain ⟨values, hlow, htext, hfold⟩ := exists_hexDigits c.toNat
  obtain ⟨hpos, hsix⟩ := length_hexText c
  have hvalues : (hexText c.toNat).mapM hexValue? = some values := by
    rw [htext, mapM_hexValue? hlow]
  simp only [codeEscape?, takeWhile_hexText]
  rw [if_neg (by simp [List.ne_nil_of_length_pos hpos, hsix]), hvalues]
  simp [hfold, charOfCode?_toNat]

end Hexadecimal

theorem unquote?_skip (w rest : List Char) : unquote? w.length (w ++ rest) = unquote? 0 rest := by
  induction w with
  | nil => rfl
  | cons c cs ih => exact ih

theorem unquote?_escape {w : List Char} (h : escape? (w ++ rest) = some (c, w.length)) :
    unquote? 0 ('\\' :: (w ++ rest)) =
      (unquote? 0 rest).map fun found => (c :: found.1, found.2) := by
  rw [unquote?, h]
  change ((unquote? w.length (w ++ rest)).bind fun found => some (c :: found.1, found.2)) = _
  rw [unquote?_skip, Option.map_eq_bind]
  rfl

/-- One character, however it is spelled, is taken off. -/
theorem unquote?_spells (h : Spells c w) (rest : List Char) :
    unquote? 0 (w ++ rest) =
      (unquote? 0 rest).map fun found => (c :: found.1, found.2) := by
  cases h with
  | plain hquote hslash =>
    rw [List.singleton_append, unquote?, Option.map_eq_bind]
    · rfl
    · exact hquote
    · exact hslash
  | @short e hmem =>
    have hescape : escape? ([e] ++ rest) = some (c, [e].length) := by
      simp only [List.mem_cons, Prod.mk.injEq, List.not_mem_nil, or_false] at hmem
      rcases hmem with ⟨rfl, rfl⟩ | ⟨rfl, rfl⟩ | ⟨rfl, rfl⟩ | ⟨rfl, rfl⟩ | ⟨rfl, rfl⟩ | ⟨rfl, rfl⟩ |
        ⟨rfl, rfl⟩ <;> rfl
    exact unquote?_escape hescape
  | code =>
    have hescape : escape?
        (('u' :: '\x7b' :: hexText c.toNat ++ ['\x7d']) ++ rest) =
          some (c, ('u' :: '\x7b' :: hexText c.toNat ++ ['\x7d']).length) := by
      have hcode := codeEscape?_hexText c rest
      simp [escape?, hcode]
    have hread := unquote?_escape hescape
    simpa using hread

theorem unquote?_read {cs : List Char} {spelt : List (List Char)}
    (h : List.Forall₂ Spells cs spelt) (rest : List Char) :
    unquote? 0 (spelt.flatten ++ '"' :: rest) = some (cs, rest) := by
  induction h with
  | nil => rfl
  | cons hc _ ih =>
    rw [List.flatten_cons, List.append_assoc, unquote?_spells hc, ih]
    rfl

/-- Text in quotes is read, whatever follows. -/
theorem text_read {s : String} (h : IsQuoted s w) (rest : List Char) :
    text (w ++ rest) = some (s, rest) := by
  obtain ⟨spelt, hspells, rfl⟩ := h
  have hread : text ('"' :: (spelt.flatten ++ '"' :: rest)) =
      (unquote? 0 (spelt.flatten ++ '"' :: rest)).map
        fun found => (String.ofList found.1, found.2) := by
    rw [Option.map_eq_bind]
    rfl
  rw [List.cons_append, List.append_assoc, List.singleton_append, hread,
    unquote?_read hspells, Option.map_some, String.ofList_toList]

section Readers

variable {cs : List Char} {closing : Char}

theorem bind_read {r : Read α} {f : α → Read β} {a : α}
    (h : r cs = some (a, rest)) : (r >>= f) cs = f a rest := by
  change (r cs).bind _ = _
  rw [h]
  rfl

theorem map_read {r : Read α} {f : α → β} {a : α} (h : r cs = some (a, rest)) :
    (do return f (← r) : Read β) cs = some (f a, rest) := by
  rw [bind_read h]
  rfl

theorem char_read (c : Char) (rest : List Char) : Read.char c (c :: rest) = some ((), rest) :=
  if_pos rfl

theorem next?_read (cs : List Char) : Read.next? cs = some (cs.head?, cs) := rfl

theorem optional_read {r : Read α} {a : α} (h : r cs = some (a, rest)) :
    Read.optional r cs = some (some a, rest) := by
  unfold Read.optional
  rw [h]

/-- What neither belongs to a gap nor begins a comment. -/
def Inked (rest : List Char) : Prop := ∀ c ∈ rest.head?, isGapChar c = false ∧ c ≠ '/'

theorem inked_cons (h : isGapChar c = false ∧ c ≠ '/') (rest : List Char) : Inked (c :: rest) :=
  fun _ hb => by cases hb; exact h

theorem gapFrom_cons (h : c ≠ '/') (rest : List Char) : gapFrom .open (c :: rest) =
    if isGapChar c then gapFrom .open rest else some (c :: rest) := by
  rw [gapFrom, if_neg h]
  · rintro cs rfl
    exact absurd rfl h
  · rintro cs rfl
    exact absurd rfl h

theorem blank_read (hw : IsBlank w) (hr : Inked rest) : gap (w ++ rest) = some ((), rest) := by
  have hblank : ∀ c ∈ [' ', '\t', '\n', '\r'], isGapChar c = true ∧ c ≠ '/' := by simp [isGapChar]
  have hgap : gapFrom .open (w ++ rest) = some rest := by
    induction w with
    | nil =>
      cases rest with
      | nil => rfl
      | cons c rest =>
        obtain ⟨hc, hslash⟩ := hr c rfl
        rw [List.nil_append, gapFrom_cons hslash, hc]
        rfl
    | cons c w ih =>
      obtain ⟨hc, hw⟩ := List.forall_mem_cons.mp hw
      obtain ⟨hc, hslash⟩ := hblank c hc
      rw [List.cons_append, gapFrom_cons hslash, if_pos hc, ih hw]
  unfold gap
  rw [hgap]
  rfl

theorem blank_nil : IsBlank [] := fun _ hc => by cases hc

theorem entry_read {key : Read α} {value : α → Read β} {k blank v : List Char} {a : α} {b : β}
    (hk : ∀ rest, key (k ++ ':' :: rest) = some (a, ':' :: rest)) (hblank : IsBlank blank)
    (hv : value a (v ++ rest) = some (b, rest)) (hink : Inked (v ++ rest)) :
    entry key value (k ++ ':' :: (blank ++ (v ++ rest))) = some (b, rest) := by
  have hcolon : gap (':' :: (blank ++ (v ++ rest))) = some ((), ':' :: (blank ++ (v ++ rest))) :=
    blank_read blank_nil (inked_cons (by decide) _)
  unfold entry
  rw [bind_read (hk _), bind_read hcolon, bind_read (char_read _ _),
    bind_read (blank_read hblank hink), hv]

/-- A reader of items that takes each off before a comma. -/
structure Takes (reader : Read β) (closing : Char) (item : α → List Char → Prop) (f : α → β) :
    Prop where
  read : ∀ a v rest, item a v → reader (v ++ ',' :: rest) = some (f a, ',' :: rest)
  head : ∀ a v, item a v → ∃ c, v.head? = some c ∧ (isGapChar c = false ∧ c ≠ '/') ∧ c ≠ closing

theorem itemsUpTo_read {reader : Read β} {item : α → List Char → Prop} {f : α → β}
    (hitem : Takes reader closing item f) (hclosing : isGapChar closing = false ∧ closing ≠ '/')
    {xs : List α} (h : Listed item xs w) {limit : Nat} (hlimit : xs.length < limit) :
    itemsUpTo reader closing limit (w ++ closing :: rest) = some (xs.map f, closing :: rest) := by
  induction h generalizing limit with
  | nil hw =>
    obtain ⟨limit, rfl⟩ := Nat.exists_eq_add_of_le' (Nat.zero_lt_of_lt hlimit)
    rw [itemsUpTo, bind_read (blank_read hw (inked_cons hclosing _)), bind_read (next?_read _),
      List.head?_cons, if_pos (beq_self_eq_true _)]
    rfl
  | @cons a xs w v more hw ha _ ih =>
    obtain ⟨limit, rfl⟩ := Nat.exists_eq_add_of_le' (Nat.zero_lt_of_lt hlimit)
    obtain ⟨c, hc, hink, hne⟩ := hitem.head a v ha
    obtain ⟨cs, hv⟩ := List.head?_eq_some_iff.mp hc
    have hcomma : ∀ rest, gap (',' :: rest) = some ((), ',' :: rest) := fun rest =>
      blank_read blank_nil (inked_cons (by decide) _)
    have hstart : Inked (v ++ ',' :: (more ++ closing :: rest)) := by
      rw [hv]
      exact inked_cons hink _
    have hnext : (v ++ ',' :: (more ++ closing :: rest)).head? = some c := by
      rw [hv]
      rfl
    rw [List.append_assoc, List.append_assoc, List.cons_append, itemsUpTo,
      bind_read (blank_read hw hstart), bind_read (next?_read _), hnext,
      if_neg (by simpa using hne), bind_read (hitem.read a v _ ha), bind_read (hcomma _),
      bind_read (optional_read (char_read _ _)), if_pos Option.isSome_some,
      bind_read (ih (Nat.lt_of_succ_lt_succ hlimit))]
    rfl

theorem Listed.length_le {item : α → List Char → Prop} {xs : List α} (h : Listed item xs w) :
    xs.length ≤ w.length := by
  induction h with
  | nil => exact Nat.zero_le _
  | cons =>
    simp only [List.length_append, List.length_cons]
    omega

/-- Items in order, and the sign that closes them. -/
theorem items_read {reader : Read β} {item : α → List Char → Prop} {f : α → β}
    (hitem : Takes reader closing item f) (hclosing : isGapChar closing = false ∧ closing ≠ '/')
    {xs : List α} (h : Listed item xs w) (rest : List Char) :
    items reader closing (w ++ closing :: rest) = some (xs.map f, rest) := by
  have hbefore : itemsBefore reader closing (w ++ closing :: rest) =
      some (xs.map f, closing :: rest) := by
    refine itemsUpTo_read hitem hclosing h ?_
    have := h.length_le
    rw [List.length_append]
    omega
  unfold items
  rw [bind_read hbefore, bind_read (char_read _ _)]
  rfl

end Readers

section Words

open Text

theorem opensQuote_cons (hb : c ≠ 'b') (hr : c ≠ 'r') (rest : List Char) :
    opensQuote (c :: rest) = false := by
  unfold opensQuote
  split
  all_goals first | rfl | next heq => cases heq; exact absurd rfl ‹_›

theorem span_of_longest {p : Char → Bool} (hw : ∀ c ∈ w, p c = true)
    (hr : ∀ c ∈ rest.head?, p c = false) :
    (w ++ rest).takeWhile p = w ∧ (w ++ rest).dropWhile p = rest := by
  rw [List.takeWhile_append_of_pos hw, List.dropWhile_append_of_pos hw]
  cases rest with
  | nil => simp
  | cons c rest => simp [hr c rfl]

/-- A name that does not begin like a quotation. -/
structure IsPlainName (n : List Char) : Prop where
  start : n.head?.any isIdentifierStart = true
  unquoted : n.head? ≠ some 'b' ∧ n.head? ≠ some 'r'
  chars : n.all isIdentifierChar = true

theorem name_read {n : List Char} (hn : IsPlainName n)
    (hrest : ∀ c ∈ rest.head?, isIdentifierChar c = false) :
    name (n ++ rest) = some (String.ofList n, rest) := by
  cases n with
  | nil => cases hn.start
  | cons c cs =>
    have hb : c ≠ 'b' := by simpa using hn.unquoted.1
    have hr : c ≠ 'r' := by simpa using hn.unquoted.2
    have hstart : isIdentifierStart c = true := hn.start
    obtain ⟨htake, hdrop⟩ := span_of_longest (List.all_eq_true.mp hn.chars) hrest
    unfold name
    rw [List.cons_append, opensQuote_cons hb hr, if_neg Bool.false_ne_true]
    split
    · next heq => exact absurd (List.cons.inj heq).1 hr
    · next heq =>
      obtain ⟨rfl, -⟩ := List.cons.inj heq
      rw [if_pos hstart, ← List.cons_append, htake, hdrop]
    · next heq => cases heq

theorem wholeName_read {n : String} (hn : IsPlainName n.toList)
    (hrest : ∀ c ∈ rest.head?, isRawNameChar c = false) :
    wholeName (n.toList ++ rest) = some (n, rest) := by
  have hstop : ∀ c ∈ rest.head?, isIdentifierChar c = false := fun c hc => by
    have hraw := hrest c hc
    rw [isRawNameChar, Bool.or_eq_false_iff] at hraw
    exact hraw.2
  have hname := name_read hn hstop
  rw [String.ofList_toList] at hname
  have hnext : rest.head?.any isRawNameChar = false := (Option.any_eq_false _ _).mpr hrest
  unfold wholeName
  rw [bind_read hname, bind_read (next?_read _), hnext]
  rfl

theorem word_read (t : String) (hrest : ∀ c ∈ rest.head?, isIdentifierChar c = false) :
    word t (t.toList ++ rest) = some ((), rest) := by
  have hliteral : Read.literal t (t.toList ++ rest) = some ((), rest) := by
    unfold Read.literal
    rw [if_pos (List.isPrefixOf_iff_prefix.mpr ⟨rest, rfl⟩), ← String.length_toList, List.drop_left]
  have hnext : rest.head?.any isIdentifierChar = false := (Option.any_eq_false _ _).mpr hrest
  unfold word
  rw [bind_read hliteral, bind_read (next?_read _), hnext]
  rfl

end Words

section Values

theorem boolean_read (b : Bool) (rest : List Char) :
    boolean ((toString b).toList ++ ',' :: rest) = some (b, ',' :: rest) := by
  have hstop : ∀ c ∈ (',' :: rest).head?, Text.isIdentifierChar c = false := by
    rintro _ ⟨⟩
    decide +kernel
  unfold boolean
  cases b with
  | true =>
    have htrue : word "true" ((toString true).toList ++ ',' :: rest) = some ((), ',' :: rest) :=
      word_read "true" hstop
    rw [bind_read (optional_read htrue)]
    rfl
  | false =>
    have hfalse : word "false" ((toString false).toList ++ ',' :: rest) = some ((), ',' :: rest) :=
      word_read "false" hstop
    have htrue : Read.optional (word "true") ((toString false).toList ++ ',' :: rest) =
        some (none, (toString false).toList ++ ',' :: rest) := rfl
    rw [bind_read htrue, if_neg (by decide), bind_read hfalse]
    rfl

theorem named_read {ofName? : String → Option α} {n : String} {a : α} (hn : IsPlainName n.toList)
    (ha : ofName? n = some a) (rest : List Char) :
    (do ofName? (← wholeName) : Read α) (n.toList ++ ',' :: rest) = some (a, ',' :: rest) := by
  have hcomma : ∀ c ∈ (',' :: rest).head?, isRawNameChar c = false := by
    rintro _ ⟨⟩
    decide +kernel
  rw [bind_read (wholeName_read hn hcomma), ha]
  rfl

theorem dialect_read (d : Dialect) (rest : List Char) :
    dialect (d.name.toList ++ ',' :: rest) = some (d, ',' :: rest) := by
  have hname : IsPlainName d.name.toList := by
    cases d <;> exact ⟨by decide +kernel, by decide, by decide +kernel⟩
  exact named_read hname (by cases d <;> rfl) rest

theorem kind_read (k : Kind) (rest : List Char) :
    kind (k.name.toList ++ ',' :: rest) = some (k, ',' :: rest) := by
  have hname : IsPlainName k.name.toList := by
    cases k <;> exact ⟨by decide +kernel, by decide, by decide +kernel⟩
  exact named_read hname (by cases k <;> rfl) rest

theorem head_quoted {s : String} (h : IsQuoted s w) : w.head? = some '"' := by
  obtain ⟨spelt, -, rfl⟩ := h
  rfl

theorem takes_kindEntry :
    Takes (entry text fun name => return (name, ← kind)) '\x7d' IsKindEntry id := by
  refine ⟨?_, ?_⟩
  · rintro e _ rest ⟨k, blank, _, hk, hblank, rfl, rfl⟩
    have hkind : (do return (e.1, ← kind) : Read (String × Kind)) (e.2.name.toList ++ ',' :: rest) =
        some (e, ',' :: rest) := by
      rw [bind_read (kind_read e.2 rest)]
      rfl
    have hink : Inked (e.2.name.toList ++ ',' :: rest) := by
      cases e.2 <;> exact inked_cons (by decide) _
    rw [List.append_assoc, List.cons_append, List.append_assoc]
    exact entry_read (fun rest => text_read hk _) hblank hkind hink
  · rintro e _ ⟨k, blank, _, hk, -, -, rfl⟩
    refine ⟨'"', ?_, by decide, by decide⟩
    rw [List.head?_append, head_quoted hk, Option.some_or]

theorem kinds_read {entries : List (String × Kind)} (h : Listed IsKindEntry entries w)
    (rest : List Char) : kinds ('\x7b' :: (w ++ '\x7d' :: rest)) = some (entries, rest) := by
  unfold kinds
  rw [bind_read (char_read _ _), items_read takes_kindEntry (by decide) h, List.map_id]

theorem settingOf_read (pass : Read Unit) {s : Setting} (h : IsValue s w) (rest : List Char) :
    settingOf pass s.field (w ++ ',' :: rest) = some (some s, ',' :: rest) := by
  cases s with
  | dialect d =>
    cases h
    exact map_read (dialect_read d rest)
  | algebraic b | expandNames b | constantNodes b =>
    cases h
    exact map_read (boolean_read b rest)
  | outputName s => exact map_read (text_read h _)
  | variableKinds entries =>
    obtain ⟨v, hv, rfl⟩ := h
    rw [List.cons_append, List.append_assoc]
    exact map_read (kinds_read hv _)

theorem inked_value {s : Setting} (h : IsValue s w) (rest : List Char) : Inked (w ++ rest) := by
  cases s with
  | dialect d =>
    cases h
    cases d <;> exact inked_cons (by decide) _
  | algebraic b | expandNames b | constantNodes b =>
    cases h
    cases b <;> exact inked_cons (by decide) _
  | outputName s =>
    obtain ⟨w', rfl⟩ := List.head?_eq_some_iff.mp (head_quoted h)
    exact inked_cons (by decide) _
  | variableKinds entries =>
    obtain ⟨v, -, rfl⟩ := h
    exact inked_cons (by decide) _

theorem isPlainName_field (s : Setting) : IsPlainName s.field.toList := by
  have hall : ∀ n ∈ ["variant", "algebraic", "macros", "constant_nodes", "output_name",
      "variable_kinds"], n.toList.head?.any Text.isIdentifierStart = true ∧
      (n.toList.head? ≠ some 'b' ∧ n.toList.head? ≠ some 'r') ∧
      n.toList.all Text.isIdentifierChar = true := by decide +kernel
  obtain ⟨hstart, hunquoted, hchars⟩ := hall s.field (by cases s <;> simp [Setting.field])
  exact ⟨hstart, hunquoted, hchars⟩

theorem takes_field (pass : Read Unit) :
    Takes (entry wholeName (settingOf pass)) ')' IsField some := by
  refine ⟨?_, ?_⟩
  · rintro s _ rest ⟨_, blank, v, rfl, hblank, hv, rfl⟩
    have hcolon : ∀ rest, ∀ c ∈ (':' :: rest).head?, isRawNameChar c = false := by
      rintro rest _ ⟨⟩
      decide +kernel
    rw [List.append_assoc, List.cons_append, List.append_assoc]
    exact entry_read (fun rest => wholeName_read (isPlainName_field s) (hcolon rest)) hblank
      (settingOf_read pass hv rest) (inked_value hv _)
  · rintro s _ ⟨_, blank, v, rfl, -, -, rfl⟩
    cases s with
    | dialect _ | variableKinds _ => exact ⟨'v', by simp [Setting.field], by decide, by decide⟩
    | algebraic _ => exact ⟨'a', by simp [Setting.field], by decide, by decide⟩
    | expandNames _ => exact ⟨'m', by simp [Setting.field], by decide, by decide⟩
    | constantNodes _ => exact ⟨'c', by simp [Setting.field], by decide, by decide⟩
    | outputName _ => exact ⟨'o', by simp [Setting.field], by decide, by decide⟩

/-- A record is read as its fields. -/
theorem record_read (pass : List String → Read Unit) {settings : List Setting} {text : String}
    (h : IsRecord settings text) : (record pass).whole? text = some settings := by
  obtain ⟨w, hw, htext⟩ := h
  have hread := items_read (takes_field (pass [])) (by decide) hw []
  have hopen : ∀ cs, gap ('(' :: cs) = some ((), '(' :: cs) := fun cs =>
    blank_read blank_nil (inked_cons (by decide) _)
  have henabled : ∀ cs, enabled ('(' :: cs) = some ([], '(' :: cs) := fun cs => rfl
  have hnone : Text.isIdentifierChar '(' = false := by decide +kernel
  have hend : gap [] = some ((), []) := rfl
  have hrecord : record pass text.toList = some (settings, []) := by
    rw [htext]
    unfold record
    rw [bind_read (hopen _), bind_read (henabled _), bind_read (next?_read _), List.head?_cons,
      Option.any_some, hnone, if_neg Bool.false_ne_true]
    -- Nothing is enabled and no name is given, so the bracket comes next.
    change (do
      gap
      Read.char '('
      let settings ← items (entry wholeName (settingOf (pass []))) ')'
      gap
      return settings.filterMap id : Read (List Setting)) _ = _
    rw [bind_read (hopen _), bind_read (char_read _ _), bind_read hread, bind_read hend]
    change some (List.filterMap id (settings.map some), []) = _
    rw [List.filterMap_map]
    simp
  unfold Read.whole?
  rw [bind_read hrecord]
  rfl

end Values

section Layout

theorem spells_escaped (c : Char) : Spells c (escaped c) := by
  unfold escaped
  split
  any_goals exact .short (by simp)
  next hquote hslash =>
    split
    · exact .code c
    · exact .plain hquote hslash

theorem isQuoted_quoted (s : String) : IsQuoted s (quoted s).toList := by
  refine ⟨s.toList.map escaped, ?_, by simp [quoted, List.flatMap]⟩
  induction s.toList with
  | nil => exact .nil
  | cons c cs ih => exact .cons (spells_escaped c) ih

theorem blank_of_all (h : w.all [' ', '\t', '\n', '\r'].contains = true) : IsBlank w :=
  fun c hc => List.contains_iff_mem.mp (List.all_eq_true.mp h c hc)

/-- Items on lines of their own. -/
theorem listed_lines {item : α → List Char → Prop} {write : α → String} (indent tail : String)
    (hindent : IsBlank indent.toList) (htail : IsBlank tail.toList)
    (hitem : ∀ a, item a (write a).toList) (xs : List α) :
    Listed item xs ('\n' ::
      (String.join (xs.map fun a => indent ++ write a ++ ",\n") ++ tail).toList) := by
  have hbreak : ∀ {w : List Char}, IsBlank w → IsBlank ('\n' :: w) :=
    fun h => List.forall_mem_cons.mpr ⟨by simp, h⟩
  induction xs with
  | nil => exact .nil (by simpa using hbreak htail)
  | cons a xs ih => simpa using Listed.cons (hbreak hindent) (hitem a) ih

theorem isValue_valueText (s : Setting) : IsValue s (valueText s).toList := by
  cases s with
  | dialect | algebraic | expandNames | constantNodes => rfl
  | outputName s => exact isQuoted_quoted s
  | variableKinds entries =>
    have hentry : ∀ e : String × Kind,
        IsKindEntry e (quoted e.1 ++ ": " ++ e.2.name).toList := fun e =>
      ⟨_, [' '], _, isQuoted_quoted e.1, blank_of_all rfl, rfl, by simp⟩
    change ∃ v, _ ∧ (kindsText entries).toList = _
    unfold kindsText
    split
    · next h =>
      rw [List.isEmpty_iff.mp h]
      exact ⟨[], .nil blank_nil, rfl⟩
    · refine ⟨_, listed_lines "        " "    " (blank_of_all (by decide))
        (blank_of_all (by decide))
        hentry entries, ?_⟩
      simp [String.append_assoc]

theorem isRecord_recordText (settings : List Setting) :
    IsRecord settings (recordText settings) := by
  have hfield : ∀ s, IsField s (s.field ++ ": " ++ valueText s).toList := fun s =>
    ⟨_, [' '], _, rfl, blank_of_all rfl, isValue_valueText s, by simp⟩
  refine ⟨_, listed_lines "    " "" (blank_of_all (by decide)) blank_nil hfield settings, ?_⟩
  simp [recordText, String.append_assoc]

end Layout

end Settings

theorem SettingsFormat.lawful_standard (pass : List String → Settings.Read Unit) :
    (standard pass).Lawful where
  writes settings _ := ⟨_, rfl, Settings.isRecord_recordText settings⟩
  reads _ _ h := Settings.record_read pass h

namespace Options

/-- Options are written, and read back from their text as they are, unless the
name of the output is blank or a variable is declared an output. -/
theorem read_write_eq (f : SettingsFormat) (law : f.Lawful) (o : Options) :
    ∃ text, o.write f = .ok text ∧ read f text =
      if Text.allBlank o.outputName then .error .blankOutput
      else match o.variableKinds.entries.find? (·.2 == .output) with
        | some entry => .error (.outputVariable entry.1)
        | none => .ok o := by
  obtain ⟨text, hwrite, hrecord⟩ := law.writes o.settings o.nodup_settings
  refine ⟨text, by rw [write, hwrite]; rfl, ?_⟩
  rw [read, law.reads _ _ hrecord, Option.bind_some, ofSettings?_settings]
  simp only [fault?]
  cases Text.allBlank o.outputName with
  | true => rfl
  | false => cases o.variableKinds.entries.find? (·.2 == .output) <;> rfl

/-- An output with a quote, a backslash, a line end and a letter of two bytes in
its name, and two variables that are not in the order of their names. -/
theorem read_write_eq_escapes :
    let f : SettingsFormat := .standard fun _ => failure
    let o : Options := declare (declare { outputName := "\"\\\nφ" } "v" .vector) "m'" .matrix
    f.Lawful ∧ ∃ text, o.write f = .ok text ∧
      text = "(\n    variant: Math,\n    algebraic: false,\n    macros: false,\n" ++
        "    constant_nodes: true,\n    output_name: \"\\\"\\\\\\nφ\",\n" ++
        "    variable_kinds: \x7b\n        \"v\": Vector,\n        \"m\\'\": Matrix,\n" ++
        "    \x7d,\n)" ∧ read f text = .ok o := by
  intro f o
  have law : f.Lawful := SettingsFormat.lawful_standard _
  obtain ⟨text, hwrite, hread⟩ := read_write_eq f law o
  have htext : text = Settings.recordText o.settings := (Except.ok.inj hwrite).symm
  refine ⟨law, text, hwrite, ?_, ?_⟩
  · rw [htext]
    decide +kernel
  · rw [hread]
    have hnamed : Text.allBlank o.outputName = false := by decide +kernel
    rw [hnamed]
    rfl

end Options

end FormulaGraph
