import FormulaGraph.Numeric.Decimal
import Mathlib.Algebra.Order.Field.Power
import Mathlib.Data.Int.Log
import Mathlib.Data.Rat.Floor
import Mathlib.Tactic.Linarith
import Mathlib.Tactic.Positivity
import Mathlib.Tactic.Ring

/-!
Rounding to a binary format. The result depends on the ratio alone and not on
how it is written, and a number of the format is rounded to itself.
-/

namespace FormulaGraph.Numeric

variable {den num : Nat}

theorem scaled_ratio (num den : Nat) (e : Int) :
    ((num * Nat.pow 2 (-e).toNat : Nat) : ℚ) / (den * Nat.pow 2 e.toNat : Nat) =
      (num : ℚ) / den / 2 ^ e := by
  simp only [Nat.pow_eq, Nat.cast_mul, Nat.cast_pow, Nat.cast_ofNat]
  rcases Int.le_total 0 e with h | h
  · obtain ⟨n, rfl⟩ := Int.eq_ofNat_of_zero_le h
    simp [div_div]
  · obtain ⟨n, rfl⟩ := Int.exists_eq_neg_ofNat h
    simp only [neg_neg, Int.toNat_natCast, Int.toNat_neg_natCast, pow_zero, mul_one, zpow_neg,
      zpow_natCast, div_inv_eq_mul]
    ring

theorem scaled_value (s : Nat) (e : Int) :
    ((s * Nat.pow 2 e.toNat : Nat) : ℚ) / (Nat.pow 2 (-e).toNat : Nat) = s * 2 ^ e := by
  simpa using scaled_ratio s 1 (-e)

theorem ratio_lt_zpow_iff (hd : 0 < den) (e : Int) :
    num * Nat.pow 2 (-e).toNat < den * Nat.pow 2 e.toNat ↔ (num : ℚ) / den < 2 ^ e := by
  have hp : (0 : ℚ) < (den * Nat.pow 2 e.toNat : Nat) := by
    exact_mod_cast Nat.mul_pos hd (Nat.pow_pos Nat.two_pos)
  have h2 : (0 : ℚ) < 2 ^ e := by positivity
  rw [← div_lt_one h2, ← scaled_ratio, div_lt_one hp]
  exact_mod_cast Iff.rfl

theorem floorLog2_eq_log (hn : 0 < num) (hd : 0 < den) :
    floorLog2 num den = Int.log 2 ((num : ℚ) / den) := by
  have hq : (0 : ℚ) < (num : ℚ) / den := by positivity
  have hn1 : ((2 ^ num.log2 : Nat) : ℚ) ≤ num := by
    exact_mod_cast Nat.log2_self_le hn.ne'
  have hn2 : (num : ℚ) < (2 ^ (num.log2 + 1) : Nat) := by exact_mod_cast Nat.lt_log2_self
  have hd1 : ((2 ^ den.log2 : Nat) : ℚ) ≤ den := by
    exact_mod_cast Nat.log2_self_le hd.ne'
  have hd2 : (den : ℚ) < (2 ^ (den.log2 + 1) : Nat) := by exact_mod_cast Nat.lt_log2_self
  have hd0 : (0 : ℚ) < den := by exact_mod_cast hd
  have low : (2 : ℚ) ^ ((num.log2 : Int) - den.log2 - 1) ≤ (num : ℚ) / den := by
    rw [le_div_iff₀ hd0]
    calc (2 : ℚ) ^ ((num.log2 : Int) - den.log2 - 1) * den
        ≤ 2 ^ ((num.log2 : Int) - den.log2 - 1) * (2 ^ (den.log2 + 1) : Nat) := by gcongr
      _ = (2 ^ num.log2 : Nat) := by
        push_cast
        rw [← zpow_natCast, ← zpow_natCast, ← zpow_add₀ (by norm_num)]
        congr 1
        push_cast
        ring
      _ ≤ num := hn1
  have high : (num : ℚ) / den < 2 ^ ((num.log2 : Int) - den.log2 + 1) := by
    rw [div_lt_iff₀ hd0]
    calc (num : ℚ) < (2 ^ (num.log2 + 1) : Nat) := hn2
      _ = 2 ^ ((num.log2 : Int) - den.log2 + 1) * (2 ^ den.log2 : Nat) := by
        push_cast
        rw [← zpow_natCast, ← zpow_natCast, ← zpow_add₀ (by norm_num)]
        congr 1
        push_cast
        ring
      _ ≤ 2 ^ ((num.log2 : Int) - den.log2 + 1) * den := by gcongr
  have hle : ∀ e : Int, (2 : ℚ) ^ e ≤ (num : ℚ) / den → e ≤ Int.log 2 ((num : ℚ) / den) := by
    intro e h
    exact (Int.zpow_le_iff_le_log (by norm_num) hq).mp (by exact_mod_cast h)
  have hlt : ∀ e : Int, (num : ℚ) / den < 2 ^ e → Int.log 2 ((num : ℚ) / den) < e := by
    intro e h
    exact (Int.lt_zpow_iff_log_lt (by norm_num) hq).mp (by exact_mod_cast h)
  unfold floorLog2
  dsimp only
  split
  · next h =>
    rw [ratio_lt_zpow_iff hd] at h
    have := hle _ low
    have := hlt _ h
    omega
  · next h =>
    rw [ratio_lt_zpow_iff hd, not_lt] at h
    have := hle _ h
    have := hlt _ high
    omega

theorem le_floorLog2_iff (hn : 0 < num) (hd : 0 < den) {e : Int} :
    e ≤ floorLog2 num den ↔ (2 : ℚ) ^ e ≤ (num : ℚ) / den := by
  have hq : (0 : ℚ) < (num : ℚ) / den := by positivity
  rw [floorLog2_eq_log hn hd, ← Int.zpow_le_iff_le_log Nat.one_lt_two hq, Nat.cast_ofNat]

theorem floorLog2_lt_iff (hn : 0 < num) (hd : 0 < den) {e : Int} :
    floorLog2 num den < e ↔ (num : ℚ) / den < 2 ^ e := by
  rw [← not_le, le_floorLog2_iff hn hd, not_le]

theorem roundDiv_mul_right (num den : Nat) {k : Nat} (hk : 0 < k) :
    roundDiv (num * k) (den * k) = roundDiv num den := by
  unfold roundDiv
  dsimp only
  rw [Nat.mul_div_mul_right _ _ hk, Nat.mul_mod_mul_right, ← Nat.mul_assoc]
  simp only [Nat.mul_lt_mul_right hk]

theorem roundDiv_congr {num' den' : Nat} (hd : 0 < den) (hd' : 0 < den')
    (h : num * den' = num' * den) : roundDiv num den = roundDiv num' den' := by
  rw [← roundDiv_mul_right num den hd', ← roundDiv_mul_right num' den' hd, h, Nat.mul_comm den den']

theorem roundDiv_exact (m : Nat) {k : Nat} (hk : 0 < k) : roundDiv (m * k) k = m := by
  unfold roundDiv
  simp [Nat.mul_div_cancel m hk, hk]

namespace Format

variable (F : Format)

theorem round_le_infinity (num den : Nat) : F.round num den ≤ F.infinity := by
  unfold Format.round
  split
  · exact Nat.zero_le _
  · exact Nat.min_le_right _ _

/-- Ratios that are equal are rounded to the same magnitude. -/
theorem round_congr {num' den' : Nat} (hd : 0 < den) (hd' : 0 < den')
    (hq : (num : ℚ) / den = num' / den') : F.round num den = F.round num' den' := by
  have h : num * den' = num' * den := by
    rw [div_eq_div_iff (by exact_mod_cast hd.ne') (by exact_mod_cast hd'.ne')] at hq
    exact_mod_cast hq
  rcases Nat.eq_zero_or_pos num with rfl | hn
  · have : num' = 0 := by
      rw [Nat.zero_mul] at h
      exact (Nat.mul_eq_zero.mp h.symm).resolve_right hd.ne'
    rw [this]
    simp [Format.round]
  · have hn' : 0 < num' := by
      rcases Nat.eq_zero_or_pos num' with rfl | hn'
      · rw [Nat.zero_mul] at h
        exact absurd h (Nat.mul_pos hn hd').ne'
      · exact hn'
    have hlog : floorLog2 num den = floorLog2 num' den' := by
      rw [floorLog2_eq_log hn hd, floorLog2_eq_log hn' hd', hq]
    unfold Format.round
    rw [if_neg hn.ne', if_neg hn'.ne', hlog]
    dsimp only
    rw [roundDiv_congr]
    · exact Nat.mul_pos hd (Nat.pow_pos Nat.two_pos)
    · exact Nat.mul_pos hd' (Nat.pow_pos Nat.two_pos)
    · rw [Nat.mul_mul_mul_comm, h, Nat.mul_mul_mul_comm]

/-- The significand of a magnitude is in the range of one power of two, unless
the exponent is the smallest. -/
theorem significand_bounds (m : Nat) :
    F.significand m < 2 ^ (F.fractionBits + 1) ∧
      (F.exponent m = F.unitExponent ∨ 2 ^ F.fractionBits ≤ F.significand m) := by
  have hp : 0 < 2 ^ F.fractionBits := Nat.pow_pos Nat.two_pos
  unfold significand exponent
  simp only [Nat.pow_eq]
  split
  · next h => exact ⟨h, .inl rfl⟩
  · have := Nat.mod_lt m hp
    rw [Nat.pow_succ]
    exact ⟨by omega, .inr (Nat.le_add_right _ _)⟩

/-- A magnitude counts the numbers of the format below it. -/
theorem eq_count (m : Nat) :
    (F.exponent m - F.unitExponent).toNat * 2 ^ F.fractionBits + F.significand m = m := by
  have hp : 0 < 2 ^ F.fractionBits := Nat.pow_pos Nat.two_pos
  unfold significand exponent
  simp only [Nat.pow_eq]
  split
  · simp
  · next h =>
    have hq : 1 ≤ m / 2 ^ F.fractionBits := by
      rw [Nat.le_div_iff_mul_le hp]
      rw [Nat.pow_succ] at h
      omega
    have hm := Nat.div_add_mod m (2 ^ F.fractionBits)
    have he : (F.unitExponent + ((m / 2 ^ F.fractionBits - 1 : Nat) : Int) -
        F.unitExponent).toNat = m / 2 ^ F.fractionBits - 1 := by omega
    rw [he, Nat.sub_mul, Nat.one_mul]
    have : 2 ^ F.fractionBits ≤ m / 2 ^ F.fractionBits * 2 ^ F.fractionBits :=
      Nat.le_mul_of_pos_left _ hq
    rw [Nat.mul_comm] at hm
    omega

theorem unitExponent_le_exponent (m : Nat) : F.unitExponent ≤ F.exponent m := by
  unfold exponent
  split <;> omega

/-- A finite number is rounded to itself. -/
theorem round_exact {m : Nat} (hm : m < F.infinity) :
    F.round (F.significand m * Nat.pow 2 (F.exponent m).toNat)
      (Nat.pow 2 (-F.exponent m).toNat) = m := by
  obtain ⟨hs, he⟩ := F.significand_bounds m
  have hcount := F.eq_count m
  have hue := F.unitExponent_le_exponent m
  generalize F.significand m = s at *
  generalize F.exponent m = e at *
  have hpow : ∀ n, 0 < Nat.pow 2 n := fun n => Nat.pow_pos Nat.two_pos
  rcases Nat.eq_zero_or_pos s with rfl | hs0
  · have : e = F.unitExponent := he.resolve_right (by
      have := hpow F.fractionBits
      simp only [Nat.pow_eq] at this
      omega)
    subst this
    simpa [Format.round] using hcount
  · have hq := scaled_value s e
    have hnum : 0 < s * Nat.pow 2 e.toNat := Nat.mul_pos hs0 (hpow _)
    have hlt : floorLog2 (s * Nat.pow 2 e.toNat) (Nat.pow 2 (-e).toNat) <
        (F.fractionBits + 1 : Nat) + e := by
      rw [floorLog2_lt_iff hnum (hpow _), hq, zpow_add₀ (by norm_num), zpow_natCast]
      gcongr
      exact_mod_cast hs
    have hexp : max (floorLog2 (s * Nat.pow 2 e.toNat) (Nat.pow 2 (-e).toNat) - F.fractionBits)
        F.unitExponent = e := by
      rcases he with he | he
      · omega
      · have hge : (F.fractionBits : Int) + e ≤
            floorLog2 (s * Nat.pow 2 e.toNat) (Nat.pow 2 (-e).toNat) := by
          rw [le_floorLog2_iff hnum (hpow _), hq, zpow_add₀ (by norm_num), zpow_natCast]
          gcongr
          exact_mod_cast he
        omega
    unfold Format.round
    rw [if_neg hnum.ne', hexp]
    dsimp only
    rw [Nat.mul_assoc, Nat.mul_comm (Nat.pow 2 (-e).toNat) (Nat.pow 2 e.toNat),
      roundDiv_exact s (Nat.mul_pos (hpow _) (hpow _)), Nat.pow_eq, hcount]
    exact Nat.min_eq_left hm.le

theorem round_large (hd : 0 < den)
    (h : (2 : ℚ) ^ (F.unitExponent + F.fractionBits + Nat.pow 2 F.exponentBits) ≤
      (num : ℚ) / den) : F.round num den = F.infinity := by
  have hq : (0 : ℚ) < (num : ℚ) / den := lt_of_lt_of_le (by positivity) h
  have hn : 0 < num := by
    rcases Nat.eq_zero_or_pos num with rfl | hn
    · simp at hq
    · exact hn
  have hlog := (le_floorLog2_iff hn hd).mpr h
  unfold Format.round
  rw [if_neg hn.ne']
  dsimp only
  apply Nat.min_eq_right
  unfold Format.infinity
  refine Nat.le_trans (Nat.mul_le_mul_right _ ?_) (Nat.le_add_right _ _)
  omega

/-- What lies below half the smallest positive number is rounded to zero. -/
theorem round_small (hd : 0 < den) (h : (num : ℚ) / den < 2 ^ (F.unitExponent - 1)) :
    F.round num den = 0 := by
  rcases Nat.eq_zero_or_pos num with rfl | hn
  · simp [Format.round]
  · have hlog := (floorLog2_lt_iff hn hd).mpr h
    have hexp : max (floorLog2 num den - F.fractionBits) F.unitExponent = F.unitExponent := by
      omega
    unfold Format.round
    rw [if_neg hn.ne', hexp]
    dsimp only
    generalize F.unitExponent = e at *
    have hden : 0 < den * Nat.pow 2 e.toNat := Nat.mul_pos hd (Nat.pow_pos Nat.two_pos)
    have hhalf : 2 * (num * Nat.pow 2 (-e).toNat) < den * Nat.pow 2 e.toNat := by
      have h2 : ((num * Nat.pow 2 (-e).toNat : Nat) : ℚ) / (den * Nat.pow 2 e.toNat : Nat) <
          1 / 2 := by
        rw [scaled_ratio, div_lt_iff₀ (by positivity)]
        rw [zpow_sub_one₀ (by norm_num)] at h
        linarith
      rw [div_lt_div_iff₀ (by exact_mod_cast hden) (by norm_num)] at h2
      have : num * Nat.pow 2 (-e).toNat * 2 < 1 * (den * Nat.pow 2 e.toNat) := by exact_mod_cast h2
      omega
    have hround : roundDiv (num * Nat.pow 2 (-e).toNat) (den * Nat.pow 2 e.toNat) = 0 := by
      unfold roundDiv
      rw [Nat.div_eq_of_lt (by omega), Nat.mod_eq_of_lt (by omega), if_pos hhalf]
    rw [hround]
    simp

end Format

end FormulaGraph.Numeric
