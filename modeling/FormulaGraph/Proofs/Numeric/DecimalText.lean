import FormulaGraph.Function.Folding
import FormulaGraph.Proofs.Numeric.Rounding
import Mathlib.Data.List.TakeWhile
import Mathlib.Tactic.FieldSimp
import Mathlib.Tactic.NormNum

/-!
Decimal text of numbers and what it is read as. Of the many NaNs of a format
folding gives one at most, so the numbers of a formula can be told apart by their
text.
-/

namespace FormulaGraph.Numeric

variable {d : Decimal} {m : Nat}

theorem Decimal.magnitude_toDouble_le (negative : Bool) (d : Decimal) :
    (d.toDouble negative).magnitude ≤ Format.infinity .double := by
  unfold Decimal.toDouble
  split
  · exact Nat.zero_le _
  · split
    · exact Nat.le_refl _
    · split
      · exact Nat.zero_le _
      · exact Format.round_le_infinity _ _ _

def Decimal.value (d : Decimal) : ℚ := d.digits * 10 ^ d.exponent

theorem Decimal.ratio_eq_value (d : Decimal) :
    ((d.digits * Nat.pow 10 d.exponent.toNat : Nat) : ℚ) / (Nat.pow 10 (-d.exponent).toNat : Nat) =
      d.value := by
  unfold Decimal.value
  generalize d.exponent = e
  simp only [Nat.pow_eq, Nat.cast_mul, Nat.cast_pow, Nat.cast_ofNat]
  rcases Int.le_total 0 e with h | h
  · obtain ⟨n, rfl⟩ := Int.eq_ofNat_of_zero_le h
    simp
  · obtain ⟨n, rfl⟩ := Int.exists_eq_neg_ofNat h
    simp [div_eq_mul_inv]

theorem Decimal.value_large (h0 : d.digits ≠ 0) (h : 400 < d.exponent) :
    (2 : ℚ) ^ (1026 : Int) ≤ d.value := by
  have hd : (1 : ℚ) ≤ d.digits := by exact_mod_cast Nat.one_le_iff_ne_zero.mpr h0
  have hp : (2 : Nat) ^ 1026 ≤ 10 ^ 401 := by decide +kernel
  calc (2 : ℚ) ^ (1026 : Int) ≤ 10 ^ (401 : Int) := by exact_mod_cast hp
    _ ≤ 10 ^ d.exponent := zpow_le_zpow_right₀ (by norm_num) h
    _ ≤ d.digits * 10 ^ d.exponent := le_mul_of_one_le_left (by positivity) hd

theorem Decimal.value_small (h : d.exponent + d.digits.log2 < -401) :
    d.value < 2 ^ (-1075 : Int) := by
  have hd : (d.digits : ℚ) < 2 ^ (d.digits.log2 + 1) := by
    exact_mod_cast Nat.lt_log2_self
  have h2 : (2 : ℚ) ^ (d.digits.log2 + 1) ≤ 10 ^ (d.digits.log2 + 1) := by
    gcongr
    norm_num
  have h10 : (10 : ℚ) ^ d.exponent ≤ 10 ^ (-402 - (d.digits.log2 : Int)) :=
    zpow_le_zpow_right₀ (by norm_num) (by omega)
  have hp : (2 : Nat) ^ 1075 < 10 ^ 401 := by decide +kernel
  calc (d.digits : ℚ) * 10 ^ d.exponent
      < 10 ^ (d.digits.log2 + 1) * 10 ^ (-402 - (d.digits.log2 : Int)) :=
        mul_lt_mul (hd.trans_le h2) h10 (by positivity) (by positivity)
    _ = 10 ^ (-401 : Int) := by
        rw [← zpow_natCast, ← zpow_add₀ (by norm_num)]
        congr 1
        push_cast
        ring
    _ < 2 ^ (-1075 : Int) := by
        rw [zpow_neg, zpow_neg, inv_lt_inv₀ (by positivity) (by positivity)]
        exact_mod_cast hp

theorem Decimal.toDouble_eq_ofRatio (negative : Bool) (h0 : d.digits ≠ 0) :
    d.toDouble negative = .ofRatio negative (d.digits * Nat.pow 10 d.exponent.toNat)
      (Nat.pow 10 (-d.exponent).toNat) := by
  have hden : 0 < Nat.pow 10 (-d.exponent).toNat := Nat.pow_pos (by norm_num)
  unfold Decimal.toDouble
  rw [if_neg h0]
  split
  · next h =>
    unfold Binary.infinity Binary.ofRatio
    rw [Format.round_large _ hden]
    rw [Decimal.ratio_eq_value]
    exact Decimal.value_large h0 h
  · split
    · next h =>
      unfold Binary.ofRatio
      rw [Format.round_small _ hden]
      rw [Decimal.ratio_eq_value]
      exact Decimal.value_small h
    · rfl

theorem Decimal.toDouble_congr (negative : Bool) {d' : Decimal} (h : d.value = d'.value) :
    d.toDouble negative = d'.toDouble negative := by
  have hpos : ∀ e : Int, (10 : ℚ) ^ e ≠ 0 := fun e => zpow_ne_zero e (by norm_num)
  by_cases h0 : d.digits = 0
  · have h0' : d'.digits = 0 := by
      simpa [Decimal.value, h0, hpos] using h.symm
    simp [Decimal.toDouble, h0, h0']
  · have h0' : d'.digits ≠ 0 := by
      intro h0'
      simp [Decimal.value, h0, h0', hpos] at h
    have hden : ∀ n, 0 < Nat.pow 10 n := fun n => Nat.pow_pos (by norm_num)
    rw [toDouble_eq_ofRatio _ h0, toDouble_eq_ofRatio _ h0']
    refine congrArg (Binary.mk negative) (Format.round_congr _ (hden _) (hden _) ?_)
    rw [ratio_eq_value, ratio_eq_value, h]

section Digits

theorem digitsValue_append (a b : List Char) :
    digitsValue (a ++ b) = digitsValue a * 10 ^ b.length + digitsValue b := by
  have shift : ∀ (b : List Char) (n : Nat), b.foldl (fun n c => 10 * n + digitValue c) n =
      n * 10 ^ b.length + digitsValue b := by
    intro b
    induction b with
    | nil => intro n; simp [digitsValue]
    | cons c b ih =>
      intro n
      simp only [digitsValue, List.foldl_cons, List.length_cons]
      rw [ih, ih (10 * 0 + digitValue c), pow_succ]
      ring
  unfold digitsValue
  rw [List.foldl_append, shift]
  rfl

theorem digitsValue_zeros (k : Nat) : digitsValue (List.replicate k '0') = 0 := by
  induction k with
  | zero => rfl
  | succ k ih =>
    rw [List.replicate_succ', digitsValue_append, ih]
    rfl

theorem digitsValue_toDigits (n : Nat) : digitsValue (Nat.toDigits 10 n) = n :=
  Nat.ofDigitChars_toDigits (by norm_num) (by norm_num)

theorem isDigit_toDigits {n : Nat} : ∀ c ∈ Nat.toDigits 10 n, c.isDigit :=
  fun _ hc => Nat.isDigit_of_mem_toDigits (by norm_num) (by norm_num) hc

theorem eq_stripped_append (cs : List Char) :
    ∃ k, cs = (cs.reverse.dropWhile (· == '0')).reverse ++ List.replicate k '0' := by
  refine ⟨(cs.reverse.takeWhile (· == '0')).length, ?_⟩
  have hz : cs.reverse.takeWhile (· == '0') =
      List.replicate (cs.reverse.takeWhile (· == '0')).length '0' := by
    apply List.eq_replicate_of_mem
    intro c hc
    exact eq_of_beq (List.all_eq_true.mp List.all_takeWhile c hc)
  have hs := List.takeWhile_append_dropWhile (p := (· == '0')) (l := cs.reverse)
  rw [hz] at hs
  have := congrArg List.reverse hs
  rw [List.reverse_append, List.reverse_replicate, List.reverse_reverse] at this
  exact this.symm

end Digits

namespace Decimal

theorem read?_digits {whole : List Char} (hw : ∀ c ∈ whole, c.isDigit) (h0 : whole ≠ []) :
    read? whole = some ⟨digitsValue whole, 0⟩ := by
  have ht : whole.takeWhile Char.isDigit = whole :=
    List.takeWhile_eq_self_iff.mpr hw
  have hd : whole.dropWhile Char.isDigit = [] :=
    List.dropWhile_eq_nil_iff.mpr hw
  unfold read?
  simp [ht, hd, h0, readExponent]

theorem read?_point {whole fraction : List Char} (hw : ∀ c ∈ whole, c.isDigit)
    (hf : ∀ c ∈ fraction, c.isDigit) (h0 : whole ≠ []) :
    read? (whole ++ '.' :: fraction) =
      some ⟨digitsValue (whole ++ fraction), -(fraction.length : Int)⟩ := by
  have ht : (whole ++ '.' :: fraction).takeWhile Char.isDigit = whole := by
    rw [List.takeWhile_append_of_pos hw]
    simp
  have hd : (whole ++ '.' :: fraction).dropWhile Char.isDigit = '.' :: fraction := by
    rw [List.dropWhile_append_of_pos hw]
    simp
  have ht' : fraction.takeWhile Char.isDigit = fraction :=
    List.takeWhile_eq_self_iff.mpr hf
  have hd' : fraction.dropWhile Char.isDigit = [] :=
    List.dropWhile_eq_nil_iff.mpr hf
  unfold read?
  simp [ht, hd, ht', hd', h0, readExponent]

/-- The digits after the point of a decimal, before zeros at the end go. -/
def places (d : Decimal) : List Char :=
  let tail := Nat.toDigits 10 (d.digits % 10 ^ (-d.exponent).toNat)
  List.replicate ((-d.exponent).toNat - tail.length) '0' ++ tail

theorem length_places (h : d.exponent < 0) : d.places.length = (-d.exponent).toNat := by
  have hlen : (Nat.toDigits 10 (d.digits % 10 ^ (-d.exponent).toNat)).length ≤
      (-d.exponent).toNat := by
    rw [Nat.length_toDigits_le_iff (by norm_num) (by omega)]
    exact Nat.mod_lt _ (by positivity)
  simp only [places, List.length_append, List.length_replicate]
  omega

theorem digitsValue_places (d : Decimal) :
    digitsValue d.places = d.digits % 10 ^ (-d.exponent).toNat := by
  rw [places, digitsValue_append, digitsValue_zeros, digitsValue_toDigits]
  omega

theorem isDigit_places : ∀ c ∈ d.places, c.isDigit := by
  intro c hc
  rcases List.mem_append.mp hc with hc | hc
  · rw [List.eq_of_mem_replicate hc]
    rfl
  · exact isDigit_toDigits c hc

def fraction (d : Decimal) : List Char := (d.places.reverse.dropWhile (· == '0')).reverse

theorem isDigit_fraction : ∀ c ∈ d.fraction, c.isDigit := by
  obtain ⟨zeros, hz⟩ := eq_stripped_append d.places
  intro c hc
  have : c ∈ d.places := by
    rw [hz]
    exact List.mem_append_left _ hc
  exact isDigit_places c this

/-- Whole part and fraction together have the value of the decimal. -/
theorem value_eq_of_fraction (h : d.exponent < 0) :
    (⟨digitsValue (Nat.toDigits 10 (d.digits / 10 ^ (-d.exponent).toNat) ++ d.fraction),
      -(d.fraction.length : Int)⟩ : Decimal).value = d.value := by
  obtain ⟨zeros, hz⟩ := eq_stripped_append d.places
  have hlen := length_places h
  have hval := digitsValue_places d
  rw [hz, List.length_append, List.length_replicate] at hlen
  rw [hz, digitsValue_append, digitsValue_zeros, List.length_replicate, Nat.add_zero] at hval
  have hdiv := Nat.div_add_mod d.digits (10 ^ (-d.exponent).toNat)
  rw [← hval] at hdiv
  change d.fraction.length + zeros = _ at hlen
  change _ + digitsValue d.fraction * _ = _ at hdiv
  rw [← hlen] at hdiv ⊢
  have he : d.exponent = -(d.fraction.length : Int) + -(zeros : Int) := by omega
  rw [digitsValue_append, digitsValue_toDigits]
  generalize d.digits / 10 ^ (d.fraction.length + zeros) = whole at *
  unfold value
  rw [he, zpow_add₀ (by norm_num), ← hdiv]
  push_cast
  rw [pow_add, zpow_neg (10 : ℚ) (zeros : Int), zpow_natCast]
  have h10 : (10 : ℚ) ^ zeros ≠ 0 := by positivity
  field_simp

/-- The text of a decimal is read as a decimal of the same value. -/
theorem read?_text (d : Decimal) : ∃ d', read? d.text.toList = some d' ∧ d'.value = d.value := by
  unfold text
  split
  · next h =>
    obtain ⟨n, hn⟩ := Int.eq_ofNat_of_zero_le h
    have ht : (toString (d.digits * Nat.pow 10 d.exponent.toNat)).toList =
        Nat.toDigits 10 (d.digits * Nat.pow 10 d.exponent.toNat) := Nat.toList_repr
    refine ⟨_, by rw [ht, read?_digits isDigit_toDigits Nat.toDigits_ne_nil], ?_⟩
    rw [digitsValue_toDigits]
    simp [value, hn]
  · next h =>
    have hneg : d.exponent < 0 := by omega
    have hw : (toString (d.digits / Nat.pow 10 (-d.exponent).toNat)).toList =
        Nat.toDigits 10 (d.digits / 10 ^ (-d.exponent).toNat) := Nat.toList_repr
    have ht : (toString (d.digits % Nat.pow 10 (-d.exponent).toNat)).toList =
        Nat.toDigits 10 (d.digits % 10 ^ (-d.exponent).toNat) := Nat.toList_repr
    have hf := value_eq_of_fraction hneg
    dsimp only
    rw [ht]
    change ∃ d', read? (String.toList (if d.fraction.isEmpty then _ else _)) = some d' ∧ _
    split
    · next h0 =>
      rw [List.isEmpty_iff.mp h0, List.append_nil] at hf
      refine ⟨_, ?_, hf⟩
      rw [hw, read?_digits isDigit_toDigits Nat.toDigits_ne_nil]
      rfl
    · refine ⟨_, ?_, hf⟩
      rw [String.toList_append, String.toList_append, hw]
      change read? (_ ++ ['.'] ++ (String.ofList d.fraction).toList) = _
      rw [String.toList_ofList, List.append_assoc]
      exact read?_point isDigit_toDigits isDigit_fraction Nat.toDigits_ne_nil

end Decimal

namespace Double

def ofUnsigned? (negative : Bool) (body : List Char) : Option Double :=
  match Decimal.read? body with
  | some d => some (d.toDouble negative)
  | none =>
    let name := String.ofList (body.map Char.toLower)
    if name = "inf" ∨ name = "infinity" then some (.infinity negative)
    else if name = "nan" then some ⟨negative, Format.quiet .double⟩
    else none

theorem ofText?_of_unsigned {text : String}
    (h : ∀ c ∈ text.toList.head?, c ≠ '-' ∧ c ≠ '+') :
    ofText? text = ofUnsigned? false text.toList := by
  unfold ofText?
  rcases hcs : text.toList with _ | ⟨c, r⟩
  · rfl
  · obtain ⟨h1, h2⟩ := h c (by simp [hcs])
    simp only [h1, h2, imp_self, implies_true, List.cons.injEq, false_and]
    rfl

theorem ofText?_of_minus {text : String} {r : List Char} (h : text.toList = '-' :: r) :
    ofText? text = ofUnsigned? true r := by
  unfold ofText?
  rw [h]
  rfl
theorem toDouble_eq_mk (negative : Bool) (d : Decimal) :
    d.toDouble negative = ⟨negative, (d.toDouble false).magnitude⟩ := by
  unfold Decimal.toDouble
  split
  · rfl
  · split
    · rfl
    · split <;> rfl

theorem significand_pos (h : m ≠ 0) : 0 < Format.significand .double m := by
  unfold Format.significand
  split
  · omega
  · exact Nat.add_pos_left (Nat.pow_pos Nat.two_pos) _

theorem value_exactDecimal (m : Nat) :
    (exactDecimal m).value = Format.significand .double m * 2 ^ Format.exponent .double m := by
  unfold exactDecimal Decimal.value
  dsimp only
  generalize Format.exponent .double m = e
  split
  · next h =>
    obtain ⟨n, rfl⟩ := Int.eq_ofNat_of_zero_le h
    simp
  · next h =>
    obtain ⟨n, rfl⟩ := Int.exists_eq_neg_ofNat (Int.le_of_lt (Int.not_le.mp h))
    have h10 : (10 : ℚ) ^ n = 2 ^ n * 5 ^ n := by
      rw [← mul_pow]
      norm_num
    simp only [neg_neg, Int.toNat_natCast, Nat.pow_eq, Nat.cast_mul, Nat.cast_pow, Nat.cast_ofNat,
      zpow_neg, zpow_natCast, h10]
    field_simp

theorem toDouble_exactDecimal (h0 : m ≠ 0) (hm : m < Format.infinity .double) :
    (exactDecimal m).toDouble false = ⟨false, m⟩ := by
  have hs := significand_pos h0
  have hpow : ∀ n, 0 < Nat.pow 2 n := fun n => Nat.pow_pos Nat.two_pos
  have hv := value_exactDecimal m
  have hd : (exactDecimal m).digits ≠ 0 := by
    intro hd
    have : (0 : ℚ) < (exactDecimal m).value := by
      rw [hv]
      positivity
    simp [Decimal.value, hd] at this
  rw [Decimal.toDouble_eq_ofRatio _ hd]
  refine congrArg (Binary.mk false) ?_
  rw [← Format.round_exact _ hm]
  refine Format.round_congr _ (Nat.pow_pos (by norm_num)) (hpow _) ?_
  rw [Decimal.ratio_eq_value, scaled_value, Format.round_exact _ hm, hv]

theorem toDouble_shortest (h0 : m ≠ 0) (hm : m < Format.infinity .double) :
    (shortest m).toDouble false = ⟨false, m⟩ := by
  unfold shortest
  dsimp only
  generalize List.flatMap _ _ = candidates
  rcases h : candidates.find? fun d => d.toDouble false == ⟨false, m⟩ with _ | d
  · rw [h]
    exact toDouble_exactDecimal h0 hm
  · rw [h]
    simpa using List.find?_some h

theorem unsigned_of_read? {cs : List Char} (h : Decimal.read? cs = some d) :
    ∀ c ∈ cs.head?, c ≠ '-' ∧ c ≠ '+' := by
  intro c hc
  obtain ⟨r, rfl⟩ : ∃ r, cs = c :: r := by
    cases cs with
    | nil => cases hc
    | cons a r => exact ⟨r, by simpa using hc⟩
  constructor
  · rintro rfl
    simp [Decimal.read?] at h
  · rintro rfl
    simp [Decimal.read?] at h

theorem ofText?_shortest (negative : Bool) (h0 : m ≠ 0) (hm : m < Format.infinity .double) :
    ofText? (if negative then "-" ++ (shortest m).text else (shortest m).text) =
      some ⟨negative, m⟩ := by
  obtain ⟨d, hr, hv⟩ := (shortest m).read?_text
  have hd : d.toDouble negative = ⟨negative, m⟩ := by
    rw [Decimal.toDouble_congr negative hv, toDouble_eq_mk, toDouble_shortest h0 hm]
  cases negative with
  | false =>
    rw [if_neg (by simp), ofText?_of_unsigned (unsigned_of_read? hr), ofUnsigned?, hr]
    simp only [hd]
  | true =>
    have ht : ("-" ++ (shortest m).text).toList = '-' :: (shortest m).text.toList := by
      rw [String.toList_append]
      rfl
    rw [if_pos rfl, ofText?_of_minus ht, ofUnsigned?, hr]
    simp only [hd]

/-- A number that is not a NaN is read back from its text. -/
theorem ofText?_text {x : Double} (hx : x.magnitude ≤ Format.infinity .double) :
    ofText? x.text = some x := by
  obtain ⟨negative, m⟩ := x
  unfold text
  rw [if_neg (by simpa [Binary.isNaN] using hx)]
  dsimp only
  by_cases hi : m = Format.infinity .double
  · subst hi
    cases negative <;> decide +kernel
  by_cases h0 : m = 0
  · subst h0
    cases negative <;> decide +kernel
  have hbody : (if (⟨negative, m⟩ : Double).isInfinite then "inf"
      else if (⟨negative, m⟩ : Double).isZero then "0" else (shortest m).text) =
        (shortest m).text := by
    rw [if_neg (by simpa [Binary.isInfinite] using hi), if_neg (by simpa [Binary.isZero] using h0)]
  rw [hbody]
  exact ofText?_shortest negative h0 (Nat.lt_of_le_of_ne hx hi)

def Proper (x : Double) : Prop := x = .invalid ∨ x.magnitude ≤ Format.infinity .double

/-- Proper numbers are told apart by their text. -/
theorem text_injective {x y : Double} (hx : x.Proper) (hy : y.Proper) (h : x.text = y.text) :
    x = y := by
  have hnan : ofText? (text .invalid) = some ⟨false, Format.quiet .double⟩ := by
    decide +kernel
  have hquiet : ¬ Format.quiet .double ≤ Format.infinity .double := by decide +kernel
  rcases hx with rfl | hx <;> rcases hy with rfl | hy
  · rfl
  · rw [h, ofText?_text hy] at hnan
    rw [Option.some.inj hnan] at hy
    exact absurd hy hquiet
  · rw [← h, ofText?_text hx] at hnan
    rw [Option.some.inj hnan] at hx
    exact absurd hx hquiet
  · have := ofText?_text hx
    rw [h, ofText?_text hy] at this
    exact (Option.some.inj this).symm

open Float.Model

/-- A NaN has all bits of the exponent set and some of the fraction. -/
theorem isNaN_iff_bits (f : Float) : f.isNaN = true ↔
    f.toBits.toNat / 2 ^ 52 % 2 ^ 11 = 2 ^ 11 - 1 ∧ f.toBits.toNat % 2 ^ 52 ≠ 0 := by
  have hf : (@UnpackedFloat.unpackMantissa .binary64 f.toBits.toBitVec).toNat =
      f.toBits.toNat % 2 ^ 52 := by
    simp [UnpackedFloat.unpackMantissa]
  have he : (@UnpackedFloat.unpackExponent .binary64 f.toBits.toBitVec).toNat =
      f.toBits.toNat / 2 ^ 52 % 2 ^ 11 := by
    simp [UnpackedFloat.unpackExponent, Nat.shiftRight_eq_div_pow]
  have hf0 : @UnpackedFloat.unpackMantissa .binary64 f.toBits.toBitVec = 0#52 ↔
      f.toBits.toNat % 2 ^ 52 = 0 := by
    rw [← hf, ← BitVec.toNat_inj]
    rfl
  have he0 : @UnpackedFloat.unpackExponent .binary64 f.toBits.toBitVec = -1#11 ↔
      f.toBits.toNat / 2 ^ 52 % 2 ^ 11 = 2 ^ 11 - 1 := by
    rw [← he, ← BitVec.toNat_inj]
    rfl
  rw [← he0, ne_eq, ← hf0]
  show (UnpackedFloat.unpack .binary64 f.toBits.toBitVec).isNaN = true ↔ _
  unfold UnpackedFloat.unpack
  dsimp only
  by_cases h : @UnpackedFloat.unpackExponent .binary64 f.toBits.toBitVec = -1#11
  · rw [if_pos h]
    by_cases h' : @UnpackedFloat.unpackMantissa .binary64 f.toBits.toBitVec = 0#52
    · rw [if_pos h']
      exact iff_of_false Bool.false_ne_true fun hc => hc.2 h'
    · rw [if_neg h']
      exact iff_of_true rfl ⟨h, h'⟩
  · rw [if_neg h]
    refine iff_of_false ?_ fun hc => h hc.1
    by_cases h₀ : @UnpackedFloat.unpackExponent .binary64 f.toBits.toBitVec = 0#11
    · rw [if_pos h₀]
      by_cases h' : @UnpackedFloat.unpackMantissa .binary64 f.toBits.toBitVec = 0#52
      · rw [dif_pos h']
        exact Bool.false_ne_true
      · rw [dif_neg h']
        exact Bool.false_ne_true
    · rw [if_neg h₀]
      exact Bool.false_ne_true

theorem proper_ofFloat (f : Float) : (ofFloat f).Proper := by
  unfold ofFloat
  split
  · exact .inl rfl
  · next h =>
    rw [isNaN_iff_bits] at h
    have hmask : (f.toBits &&& 0x7fffffffffffffff).toNat = f.toBits.toNat % 2 ^ 63 := by
      rw [UInt64.toNat_and]
      exact Nat.and_two_pow_sub_one_eq_mod _ 63
    have hinf : Format.infinity .double = (2 ^ 11 - 1) * 2 ^ 52 := rfl
    right
    dsimp only
    rw [hmask, hinf]
    omega

theorem proper_lift (f : Float → Float) (hx : x.Proper) : (lift f x).Proper := by
  unfold lift
  split
  · exact hx
  · exact proper_ofFloat _

theorem proper_lift₂ (f : Float → Float → Float) {y : Double} (hx : x.Proper) (hy : y.Proper) :
    (lift₂ f x y).Proper := by
  unfold lift₂
  split
  · exact hx
  · split
    · exact hy
    · exact proper_ofFloat _

theorem proper_fold? {f : Function} {args : List Double} (ha : ∀ a ∈ args, a.Proper)
    (h : f.fold? args = some x) : x.Proper := by
  unfold Function.fold? at h
  split at h <;> cases h
  case h_12 base rest _ =>
    exact proper_lift₂ _ (ha _ (by simp)) (ha _ (by simp))
  all_goals exact proper_lift _ (ha _ (by simp))

end Double

end FormulaGraph.Numeric
