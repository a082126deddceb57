import FormulaGraph.Proofs.Numeric.Rounding

/-!
Integers in single precision. A number in single precision has 24 significant
bits, so an integer of more bits is rounded; a 32-bit integer comes back as it
was if it has no more, and otherwise only if it is the largest of all, since
what lies outside goes to the nearer end.
-/

namespace FormulaGraph.Numeric

variable {n : Nat} {i : Int}
  {num den k m : Nat}

theorem roundDiv_le (hd : 0 < den) (h : num ≤ k * den) : roundDiv num den ≤ k := by
  have hdiv : num / den ≤ k := Nat.div_le_of_le_mul (by rwa [Nat.mul_comm])
  unfold roundDiv
  dsimp only
  rcases Nat.lt_or_eq_of_le hdiv with hlt | heq
  · split
    · omega
    · split <;> omega
  · have hmod := Nat.div_add_mod num den
    rw [heq, Nat.mul_comm] at hmod
    rw [heq, if_pos (by omega)]

theorem le_roundDiv (hd : 0 < den) (h : k * den ≤ num) : k ≤ roundDiv num den := by
  have hdiv : k ≤ num / den := (Nat.le_div_iff_mul_le hd).mpr h
  unfold roundDiv
  dsimp only
  split
  · exact hdiv
  · split <;> omega

/-- A quotient rounded is exact only where the division is. -/
theorem roundDiv_mul_eq_iff (hd : 0 < den) : roundDiv num den * den = num ↔ den ∣ num := by
  constructor
  · exact fun h => ⟨roundDiv num den, by rw [Nat.mul_comm, h]⟩
  · rintro ⟨k, rfl⟩
    rw [Nat.mul_comm den k, roundDiv_exact k hd]

theorem floorLog2_one (hn : 0 < n) : floorLog2 n 1 = n.log2 := by
  have hle := Nat.log2_self_le hn.ne'
  unfold floorLog2
  have hlog : Nat.log2 1 = 0 := by decide
  rw [hlog]
  simp only [Nat.pow_eq]
  rw [if_neg]
  · simp
  · simpa using hle

/-- The unit of the last place of an integer in single precision; one for the
integers that need no rounding. -/
def singleUnit (n : Nat) : Nat := 2 ^ (n.log2 - 23)

theorem singleUnit_pos (n : Nat) : 0 < singleUnit n := Nat.pow_pos Nat.two_pos

/-- The significand of a rounded integer, before a carry. -/
theorem round_nat_single (hn : 0 < n) (hlog : n.log2 ≤ 31) :
    ∃ m, Format.single.round n 1 = (n.log2 + 126) * 2 ^ 23 + m ∧ 2 ^ 23 ≤ m ∧ m ≤ 2 ^ 24 ∧
      (n.log2 < 23 → m = n * 2 ^ (23 - n.log2)) ∧
      (23 ≤ n.log2 → m = roundDiv n (singleUnit n)) := by
  have hlow := Nat.log2_self_le hn.ne'
  have hhigh := @Nat.lt_log2_self n
  generalize hL : n.log2 = L at *
  have hm : roundDiv (n * 2 ^ (23 - L)) (2 ^ (L - 23)) ≤ 2 ^ 24 := by
    refine roundDiv_le (Nat.pow_pos Nat.two_pos) ?_
    calc n * 2 ^ (23 - L) ≤ 2 ^ (L + 1) * 2 ^ (23 - L) := Nat.mul_le_mul_right _ hhigh.le
      _ = 2 ^ 24 * 2 ^ (L - 23) := by
          rw [← Nat.pow_add, ← Nat.pow_add]
          congr 1
          omega
  refine ⟨roundDiv (n * 2 ^ (23 - L)) (2 ^ (L - 23)), ?_, ?_, hm, ?_, ?_⟩
  · have hunit : Format.single.unitExponent = -149 := by decide
    have hexp : max (floorLog2 n 1 - (Format.single.fractionBits : Int)) (-149) =
        (L : Int) - 23 := by
      rw [floorLog2_one hn, hL]
      show max ((L : Int) - 23) (-149) = _
      omega
    unfold Format.round
    rw [if_neg hn.ne', hunit, hexp]
    simp only [Nat.pow_eq, Nat.one_mul]
    have hneg : (-((L : Int) - 23)).toNat = 23 - L := by omega
    have hpos : ((L : Int) - 23).toNat = L - 23 := by omega
    have hcount : ((L : Int) - 23 - -149).toNat = L + 126 := by omega
    have hinf : Format.single.infinity = 255 * 2 ^ 23 := by decide
    have hfraction : Format.single.fractionBits = 23 := rfl
    rw [hneg, hpos, hcount, hinf, hfraction]
    refine Nat.min_eq_left ?_
    calc (L + 126) * 2 ^ 23 + roundDiv (n * 2 ^ (23 - L)) (2 ^ (L - 23))
        ≤ 157 * 2 ^ 23 + 2 ^ 24 := Nat.add_le_add (Nat.mul_le_mul_right _ (by omega)) hm
      _ ≤ 255 * 2 ^ 23 := by decide
  · refine le_roundDiv (Nat.pow_pos Nat.two_pos) ?_
    calc 2 ^ 23 * 2 ^ (L - 23) = 2 ^ L * 2 ^ (23 - L) := by
          rw [← Nat.pow_add, ← Nat.pow_add]
          congr 1
          omega
      _ ≤ n * 2 ^ (23 - L) := Nat.mul_le_mul_right _ hlow
  · intro h
    rw [Nat.sub_eq_zero_of_le h.le, Nat.pow_zero]
    simpa using roundDiv_exact (n * 2 ^ (23 - L)) Nat.one_pos
  · intro h
    rw [singleUnit, hL, Nat.sub_eq_zero_of_le h, Nat.pow_zero, Nat.mul_one]

theorem significand_of_count (hk : 1 ≤ k) (hlow : 2 ^ 23 ≤ m) (hhigh : m < 2 ^ 24) :
    Format.single.significand (k * 2 ^ 23 + m) = m ∧
      Format.single.exponent (k * 2 ^ 23 + m) = (k : Int) - 149 := by
  have hunit : Format.single.unitExponent = -149 := by decide
  have hnormal : ¬k * 2 ^ 23 + m < 2 ^ 24 := by omega
  have hdiv : (k * 2 ^ 23 + m) / 2 ^ 23 = k + 1 := by omega
  have hmod : (k * 2 ^ 23 + m) % 2 ^ 23 = m - 2 ^ 23 := by omega
  have hfraction : Format.single.fractionBits = 23 := rfl
  unfold Format.significand Format.exponent
  simp only [hfraction, Nat.pow_eq, hunit, hdiv, hmod, if_neg hnormal]
  exact ⟨by omega, by omega⟩

theorem roundAway_eq (negative : Bool) (hk : 1 ≤ k) (hlow : 2 ^ 23 ≤ m)
    (hhigh : m < 2 ^ 24) : (⟨negative, k * 2 ^ 23 + m⟩ : Single).roundAway =
      if negative then
        -(((2 * (m * 2 ^ (k - 149)) + 2 ^ (149 - k)) / (2 * 2 ^ (149 - k)) : Nat) : Int)
      else ((2 * (m * 2 ^ (k - 149)) + 2 ^ (149 - k)) / (2 * 2 ^ (149 - k)) : Nat) := by
  obtain ⟨hs, he⟩ := significand_of_count hk hlow hhigh
  have hpos : ((k : Int) - 149).toNat = k - 149 := by omega
  have hneg : (-((k : Int) - 149)).toNat = 149 - k := by omega
  unfold Binary.roundAway
  simp only [hs, he, hpos, hneg, Nat.pow_eq]

theorem roundAway_of_count (negative : Bool) (hk : 149 ≤ k) (hlow : 2 ^ 23 ≤ m)
    (hhigh : m ≤ 2 ^ 24) : (⟨negative, k * 2 ^ 23 + m⟩ : Single).roundAway =
      if negative then -((m * 2 ^ (k - 149) : Nat) : Int) else (m * 2 ^ (k - 149) : Nat) := by
  have whole : ∀ {v : Nat}, (2 * v + 1) / 2 = v := by omega
  rcases Nat.lt_or_eq_of_le hhigh with hlt | rfl
  · rw [roundAway_eq negative (by omega) hlow hlt, Nat.sub_eq_zero_of_le hk, Nat.pow_zero,
      Nat.mul_one, whole]
  · have hcarry : k * 2 ^ 23 + 2 ^ 24 = (k + 1) * 2 ^ 23 + 2 ^ 23 := by omega
    have hpow : 2 ^ 23 * 2 ^ (k + 1 - 149) = 2 ^ 24 * 2 ^ (k - 149) := by
      rw [Nat.sub_add_comm hk, Nat.pow_succ]
      omega
    rw [hcarry, roundAway_eq negative (by omega) (Nat.le_refl _) (by decide),
      Nat.sub_eq_zero_of_le (show 149 ≤ k + 1 by omega), Nat.pow_zero, Nat.mul_one, whole, hpow]

/-- An integer in single precision, as an integer. -/
theorem roundAway_ofInt (hlog : i.natAbs.log2 ≤ 31) :
    (Binary.ofInt i : Single).roundAway =
      if i < 0 then -((roundDiv i.natAbs (singleUnit i.natAbs) * singleUnit i.natAbs : Nat) : Int)
      else (roundDiv i.natAbs (singleUnit i.natAbs) * singleUnit i.natAbs : Nat) := by
  rcases Nat.eq_zero_or_pos i.natAbs with hzero | hn
  · rw [Int.natAbs_eq_zero.mp hzero]
    decide
  · obtain ⟨m, hround, hlow, hhigh, hsmall, hlarge⟩ := round_nat_single hn hlog
    have hdecide : decide (i < 0) = true ↔ i < 0 := decide_eq_true_iff
    unfold Binary.ofInt Binary.ofRatio
    rw [hround]
    by_cases hL : 23 ≤ i.natAbs.log2
    · have hunit : 2 ^ (i.natAbs.log2 + 126 - 149) = singleUnit i.natAbs := by
        rw [singleUnit, show i.natAbs.log2 + 126 - 149 = i.natAbs.log2 - 23 by omega]
      rw [roundAway_of_count _ (by omega) hlow hhigh, hunit, ← hlarge hL]
      simp only [hdecide]
    · have hone : singleUnit i.natAbs = 1 := by
        rw [singleUnit, Nat.sub_eq_zero_of_le (by omega), Nat.pow_zero]
      have hm : m < 2 ^ 24 := by
        calc m = i.natAbs * 2 ^ (23 - i.natAbs.log2) := hsmall (by omega)
          _ < 2 ^ (i.natAbs.log2 + 1) * 2 ^ (23 - i.natAbs.log2) :=
            Nat.mul_lt_mul_of_pos_right Nat.lt_log2_self (Nat.pow_pos Nat.two_pos)
          _ = 2 ^ 24 := by
            rw [← Nat.pow_add, show i.natAbs.log2 + 1 + (23 - i.natAbs.log2) = 24 by omega]
      have hvalue : (2 * (m * 2 ^ (i.natAbs.log2 + 126 - 149)) +
          2 ^ (149 - (i.natAbs.log2 + 126))) / (2 * 2 ^ (149 - (i.natAbs.log2 + 126))) =
          i.natAbs := by
        rw [show i.natAbs.log2 + 126 - 149 = 0 by omega,
          show 149 - (i.natAbs.log2 + 126) = 23 - i.natAbs.log2 by omega, hsmall (by omega)]
        generalize hden : 2 ^ (23 - i.natAbs.log2) = den
        have hpos : 0 < den := hden ▸ Nat.pow_pos Nat.two_pos
        refine Nat.div_eq_of_lt_le ?_ ?_ <;> nlinarith
      have hexact : roundDiv i.natAbs 1 = i.natAbs := by
        simpa using roundDiv_exact i.natAbs Nat.one_pos
      rw [roundAway_eq _ (by omega) hlow hm, hvalue, hone, Nat.mul_one, hexact]
      simp only [hdecide]

theorem magnitude_ofInt_lt (hlog : i.natAbs.log2 ≤ 31) :
    (Binary.ofInt i : Single).magnitude < Format.single.infinity := by
  have hinf : Format.single.infinity = 255 * 2 ^ 23 := by decide
  show Format.single.round i.natAbs 1 < _
  rcases Nat.eq_zero_or_pos i.natAbs with hzero | hn
  · rw [hzero, hinf]
    decide
  · obtain ⟨m, hround, -, hhigh, -⟩ := round_nat_single hn hlog
    rw [hround, hinf]
    omega

/-- An integer of at most 24 significant bits. -/
def FitsSingle (i : Int) : Prop := ∃ (m : Int) (k : Nat), m.natAbs < 2 ^ 24 ∧ i = m * 2 ^ k

theorem singleUnit_dvd_iff : singleUnit i.natAbs ∣ i.natAbs ↔ FitsSingle i := by
  rcases Nat.eq_zero_or_pos i.natAbs with hzero | hn
  · rw [hzero]
    exact iff_of_true (Nat.dvd_zero _) ⟨0, 0, by decide, by omega⟩
  have hlow := Nat.log2_self_le hn.ne'
  have hhigh := @Nat.lt_log2_self i.natAbs
  constructor
  · intro h
    obtain ⟨m, hm⟩ : ((singleUnit i.natAbs : Nat) : Int) ∣ i := Int.natCast_dvd.mpr h
    refine ⟨m, i.natAbs.log2 - 23, ?_, ?_⟩
    · have habs : i.natAbs = 2 ^ (i.natAbs.log2 - 23) * m.natAbs := by
        nth_rewrite 1 [hm]
        rw [Int.natAbs_mul, Int.natAbs_natCast, singleUnit]
      by_contra hlarge
      have : 2 ^ (i.natAbs.log2 + 1) ≤ i.natAbs := by
        calc 2 ^ (i.natAbs.log2 + 1) ≤ 2 ^ (i.natAbs.log2 - 23) * 2 ^ 24 := by
              rw [← Nat.pow_add]
              exact Nat.pow_le_pow_right Nat.two_pos (by omega)
          _ ≤ 2 ^ (i.natAbs.log2 - 23) * m.natAbs := Nat.mul_le_mul_left _ (by omega)
          _ = i.natAbs := habs.symm
      omega
    · rw [Int.mul_comm]
      nth_rewrite 1 [hm]
      rw [singleUnit]
      norm_cast
  · rintro ⟨m, k, hm, hi⟩
    have habs : i.natAbs = m.natAbs * 2 ^ k := by
      rw [hi, Int.natAbs_mul, Int.natAbs_pow]
      rfl
    have hbits : i.natAbs.log2 - 23 ≤ k := by
      have hlt : 2 ^ i.natAbs.log2 < 2 ^ (24 + k) := by
        calc 2 ^ i.natAbs.log2 ≤ m.natAbs * 2 ^ k := habs ▸ hlow
          _ < 2 ^ 24 * 2 ^ k := Nat.mul_lt_mul_of_pos_right hm (Nat.pow_pos Nat.two_pos)
          _ = 2 ^ (24 + k) := by rw [Nat.pow_add]
      have := (Nat.pow_lt_pow_iff_right Nat.one_lt_two).mp hlt
      omega
    rw [singleUnit]
    nth_rewrite 2 [habs]
    exact Nat.dvd_mul_left_of_dvd (Nat.pow_dvd_pow 2 hbits) _

theorem roundDiv_singleUnit_le (h : n ≤ 2 ^ 31) :
    roundDiv n (singleUnit n) * singleUnit n ≤ 2 ^ 31 := by
  have hlog : n.log2 - 23 ≤ 31 := by
    rcases Nat.eq_zero_or_pos n with rfl | hn
    · decide
    · have : n.log2 < 32 := (Nat.log2_lt hn.ne').mpr (by omega)
      omega
  obtain ⟨k, hk⟩ : singleUnit n ∣ 2 ^ 31 := Nat.pow_dvd_pow 2 hlog
  rw [Nat.mul_comm] at hk
  rw [hk] at h ⊢
  exact Nat.mul_le_mul_right _ (roundDiv_le (singleUnit_pos n) h)

/-- The 32-bit integers that single precision gives back: those of at most 24
significant bits, and the largest, which is rounded up past the end. -/
theorem toInt32_ofInt_iff (i : Int32) :
    (Binary.ofInt i.toInt : Single).toInt32 = i ↔ i = Int32.maxValue ∨ FitsSingle i.toInt := by
  by_cases hlargest : i = Int32.maxValue
  · subst hlargest
    exact iff_of_true (by decide +kernel) (.inl rfl)
  rw [or_iff_right hlargest]
  rw [← Int32.toInt_inj, Int32.toInt_maxValue] at hlargest
  have hmin := i.le_toInt
  have hmax := i.toInt_lt
  have hlog : i.toInt.natAbs.log2 ≤ 31 := by
    rcases Nat.eq_zero_or_pos i.toInt.natAbs with hzero | hn
    · rw [hzero]
      decide
    · have : i.toInt.natAbs.log2 < 32 := (Nat.log2_lt hn.ne').mpr (by omega)
      omega
  have hfinite := magnitude_ofInt_lt hlog
  have hclamp : (Binary.ofInt i.toInt : Single).toInt32 =
      Int32.ofIntClamp (Binary.ofInt i.toInt : Single).roundAway := by
    unfold Binary.toInt32
    rw [if_neg, if_neg]
    · simpa [Binary.isInfinite] using hfinite.ne
    · simpa [Binary.isNaN] using hfinite.le
  have hle := roundDiv_singleUnit_le (show i.toInt.natAbs ≤ 2 ^ 31 by omega)
  have hexact : _ ↔ FitsSingle i.toInt :=
    (roundDiv_mul_eq_iff (singleUnit_pos i.toInt.natAbs)).trans singleUnit_dvd_iff
  have hvalue := roundAway_ofInt hlog
  generalize roundDiv i.toInt.natAbs (singleUnit i.toInt.natAbs) * singleUnit i.toInt.natAbs =
    v at *
  rw [← hexact, hclamp]
  have hlow : Int32.minValue.toInt ≤ (Binary.ofInt i.toInt : Single).roundAway := by
    rw [hvalue, Int32.toInt_minValue]
    split <;> omega
  by_cases hhigh : (Binary.ofInt i.toInt : Single).roundAway ≤ Int32.maxValue.toInt
  · rw [← Int32.toInt_inj, Int32.toInt_ofIntClamp hlow hhigh, hvalue]
    split <;> omega
  · have hlargest' : Int32.ofIntClamp (Binary.ofInt i.toInt : Single).roundAway =
        Int32.maxValue := by
      rw [Int32.ofIntClamp, dif_pos hlow, dif_neg hhigh]
    rw [hvalue, Int32.toInt_maxValue] at hhigh
    rw [hlargest', ← Int32.toInt_inj, Int32.toInt_maxValue]
    split at hhigh <;> omega

end FormulaGraph.Numeric
