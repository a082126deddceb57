import FormulaGraph.Proofs.Numeric.Rounding
import Mathlib.Data.Nat.Count

/-!
The number of a format that is nearest to a given one, said by comparison with
the middles between neighbours, and doubles in single precision. Rounding by
division gives the same.
-/

namespace FormulaGraph.Numeric

variable {den num k m : Nat} {v : ℚ}

namespace Format

/-- The number that a magnitude counts. Infinity stands for the power of two
beyond the largest finite number. -/
def value (F : Format) (m : Nat) : ℚ := F.significand m * 2 ^ F.exponent m

/-- Whether a number lies past the middle between a magnitude and the next, or in
the middle if the next is even. -/
def Passes (F : Format) (v : ℚ) (m : Nat) : Prop :=
  F.value m + F.value (m + 1) < 2 * v ∨ F.value m + F.value (m + 1) = 2 * v ∧ m % 2 = 1

instance (F : Format) (v : ℚ) : DecidablePred (F.Passes v) :=
  fun _ => inferInstanceAs (Decidable (_ ∨ _))

/-- The magnitude nearest to a number, which is how many middles it passes on the
way up from zero. -/
def nearest (F : Format) (v : ℚ) : Nat := Nat.count (F.Passes v) F.infinity

end Format

def Double.narrowed (x : Double) : Single :=
  if x.isNaN then ⟨x.negative, Format.single.quiet⟩
  else if x.isInfinite then .infinity x.negative
  else ⟨x.negative, Format.single.nearest (Format.double.value x.magnitude)⟩

theorem lt_roundDiv_iff (hd : 0 < den) : k < roundDiv num den ↔
    (2 * k + 1) * den < 2 * num ∨ (2 * k + 1) * den = 2 * num ∧ k % 2 = 1 := by
  have hsplit := Nat.div_add_mod num den
  have hrest := Nat.mod_lt num hd
  have hbelow : k < num / den → (k + 1) * den ≤ num / den * den := Nat.mul_le_mul_right den
  have habove : num / den < k → (num / den + 1) * den ≤ k * den := Nat.mul_le_mul_right den
  have hsame : k = num / den → k * den = num / den * den := fun h => by rw [h]
  rw [Nat.mul_comm] at hsplit
  simp only [Nat.add_mul, Nat.one_mul, Nat.mul_assoc] at hbelow habove ⊢
  unfold roundDiv
  generalize num / den = q at *
  generalize num % den = r at *
  rcases Nat.lt_trichotomy k q with h | h | h
  · have := hbelow h
    dsimp only
    split
    · omega
    · split <;> omega
  · have := hsame h
    subst h
    dsimp only
    split
    · omega
    · split <;> omega
  · have := habove h
    dsimp only
    split
    · omega
    · split <;> omega

namespace Format

variable {F : Format}

/-- The number at a place above a power of two, its end included. -/
theorem value_count {j s : Nat} (hs : s ≤ 2 ^ (F.fractionBits + 1))
    (hj : j = 0 ∨ 2 ^ F.fractionBits ≤ s) :
    F.value (j * 2 ^ F.fractionBits + s) = s * 2 ^ (F.unitExponent + j) := by
  have hp : 0 < 2 ^ F.fractionBits := Nat.pow_pos Nat.two_pos
  unfold value significand exponent
  simp only [Nat.pow_eq]
  by_cases hlow : j * 2 ^ F.fractionBits + s < 2 ^ (F.fractionBits + 1)
  · obtain rfl : j = 0 := by
      refine hj.elim id fun hs => Nat.eq_zero_of_not_pos fun hpos => ?_
      have := Nat.le_mul_of_pos_left (2 ^ F.fractionBits) hpos
      rw [Nat.pow_succ] at hlow
      omega
    rw [Nat.zero_mul, Nat.zero_add] at hlow ⊢
    simp [hlow]
  · rw [if_neg hlow, if_neg hlow]
    have hs' : 2 ^ F.fractionBits ≤ s := by
      refine hj.elim (fun h => ?_) id
      rw [h, Nat.zero_mul, Nat.zero_add] at hlow
      rw [Nat.pow_succ] at hlow
      omega
    obtain ⟨r, rfl⟩ := Nat.exists_eq_add_of_le hs'
    have hsum : j * 2 ^ F.fractionBits + (2 ^ F.fractionBits + r) =
        r + (j + 1) * 2 ^ F.fractionBits := by ring
    rw [hsum, Nat.add_mul_mod_self_right, Nat.add_mul_div_right _ _ hp]
    rcases Nat.lt_or_ge r (2 ^ F.fractionBits) with hr | hr
    · rw [Nat.mod_eq_of_lt hr, Nat.div_eq_of_lt hr, Nat.zero_add, Nat.add_sub_cancel]
    · obtain rfl : r = 2 ^ F.fractionBits := by
        rw [Nat.pow_succ] at hs
        omega
      rw [Nat.mod_self, Nat.div_self hp, Nat.add_zero, Nat.add_comm 1 (j + 1), Nat.add_sub_cancel,
        Nat.cast_succ, ← add_assoc, zpow_add_one₀ two_ne_zero]
      push_cast
      ring

theorem value_add_succ (F : Format) (m : Nat) : F.value m + F.value (m + 1) =
    (2 * F.significand m + 1 : Nat) * 2 ^ F.exponent m := by
  obtain ⟨hs, he⟩ := F.significand_bounds m
  have hcount := F.eq_count m
  have hue := F.unitExponent_le_exponent m
  have hnext : F.value (m + 1) = (F.significand m + 1 : Nat) * 2 ^ F.exponent m := by
    have hj : (F.exponent m - F.unitExponent).toNat = 0 ∨
        2 ^ F.fractionBits ≤ F.significand m + 1 := he.imp (by omega) (by omega)
    have hvalue := value_count (Nat.succ_le_of_lt hs) hj
    rw [Nat.add_succ, hcount, Int.toNat_of_nonneg (by omega), add_sub_cancel] at hvalue
    exact hvalue
  rw [hnext, value]
  push_cast
  ring

theorem strictMono_value (F : Format) : StrictMono F.value := by
  refine strictMono_nat_of_lt_succ fun m => ?_
  have hsum := F.value_add_succ m
  have hpos : (0 : ℚ) < 2 ^ F.exponent m := by positivity
  rw [value] at hsum ⊢
  push_cast at hsum
  linarith

theorem value_nonneg (F : Format) (m : Nat) : 0 ≤ F.value m := by
  unfold value
  positivity

/-- In the range of a power of two a number passes as many magnitudes as rounding
to a multiple of the last place gives. -/
theorem lt_count_iff (hf : 0 < F.fractionBits) (hd : 0 < den) {j : Nat}
    (hv : (num : ℚ) / den < 2 ^ (F.fractionBits + 1) * 2 ^ (F.unitExponent + j))
    (hj : j = 0 ∨ 2 ^ F.fractionBits * 2 ^ (F.unitExponent + j) ≤ (num : ℚ) / den) :
    m < j * 2 ^ F.fractionBits + roundDiv (num * Nat.pow 2 (-(F.unitExponent + j)).toNat)
      (den * Nat.pow 2 (F.unitExponent + j).toNat) ↔ F.Passes (num / den) m := by
  have hratio := scaled_ratio num den (F.unitExponent + j)
  have hdpos : 0 < den * Nat.pow 2 (F.unitExponent + j).toNat :=
    Nat.mul_pos hd (Nat.pow_pos Nat.two_pos)
  have hmono := F.strictMono_value
  generalize num * Nat.pow 2 (-(F.unitExponent + j)).toNat = n at *
  generalize den * Nat.pow 2 (F.unitExponent + j).toNat = d at *
  generalize (num : ℚ) / den = v at *
  have hpos : (0 : ℚ) < 2 ^ (F.unitExponent + j) := by positivity
  have hdpos' : (0 : ℚ) < d := by exact_mod_cast hdpos
  have htwice : 2 * v = (2 * n : Nat) / d * 2 ^ (F.unitExponent + j) := by
    rw [eq_div_iff hpos.ne'] at hratio
    rw [← hratio]
    push_cast
    ring
  have hpasses : ∀ s : Nat, s < roundDiv n d ↔
      (2 * s + 1 : Nat) * (2 : ℚ) ^ (F.unitExponent + j) < 2 * v ∨
        (2 * s + 1 : Nat) * (2 : ℚ) ^ (F.unitExponent + j) = 2 * v ∧ s % 2 = 1 := by
    intro s
    rw [lt_roundDiv_iff hdpos, htwice, mul_lt_mul_iff_of_pos_right hpos, lt_div_iff₀ hdpos',
      mul_left_inj' hpos.ne', eq_div_iff hdpos'.ne']
    norm_cast
  rcases Nat.lt_or_ge m (j * 2 ^ F.fractionBits + 2 ^ (F.fractionBits + 1)) with hhigh | hhigh
  · by_cases hlow : j = 0 ∨ j * 2 ^ F.fractionBits + 2 ^ F.fractionBits ≤ m
    · obtain ⟨s, rfl⟩ : ∃ s, m = j * 2 ^ F.fractionBits + s := Nat.exists_eq_add_of_le (by
        rcases hlow with rfl | hlow <;> omega)
      have hs : j = 0 ∨ 2 ^ F.fractionBits ≤ s := hlow.imp_right (by omega)
      have heven : (j * 2 ^ F.fractionBits + s) % 2 = s % 2 := by
        obtain ⟨f, hf⟩ := Nat.exists_eq_add_of_le' hf
        rw [hf, Nat.pow_succ, ← Nat.mul_assoc, Nat.add_comm, Nat.add_mul_mod_self_right]
      have hsum : F.value (j * 2 ^ F.fractionBits + s) + F.value (j * 2 ^ F.fractionBits + s + 1) =
          (2 * s + 1 : Nat) * 2 ^ (F.unitExponent + j) := by
        rw [Nat.add_assoc, value_count (by omega) hs, value_count (by omega)
          (hs.imp_right (by omega))]
        push_cast
        ring
      rw [Nat.add_lt_add_iff_left, hpasses, Passes, hsum, heven]
    · -- Below its range the number passes everything.
      rw [not_or, not_le] at hlow
      have hle := hj.resolve_left hlow.1
      obtain ⟨p, hp⟩ := Nat.exists_eq_add_of_le' (Nat.pow_pos (n := F.fractionBits) Nat.two_pos)
      have hround : p < roundDiv n d := by
        rw [hpasses]
        left
        have hcast : (2 : ℚ) ^ F.fractionBits = p + 1 := by exact_mod_cast hp
        rw [hcast] at hle
        push_cast
        linarith
      refine iff_of_true (by omega) (.inl ?_)
      have hfirst := value_count (F := F) (j := j) (s := 2 ^ F.fractionBits)
        (Nat.pow_le_pow_right Nat.two_pos (Nat.le_succ _)) (.inr le_rfl)
      have hnext := hmono.monotone (Nat.succ_le_of_lt hlow.2)
      have hstep := hmono (Nat.lt_succ_self m)
      rw [hfirst, Nat.cast_pow, Nat.cast_ofNat] at hnext
      rw [← Nat.succ_eq_add_one]
      linarith
  · -- Above its range the number passes nothing.
    have hround : ¬2 ^ (F.fractionBits + 1) < roundDiv n d := by
      rw [hpasses]
      push_cast
      rintro (h | ⟨h, -⟩) <;> linarith
    have hlast := value_count (F := F) (j := j) le_rfl
      (.inr (Nat.pow_le_pow_right Nat.two_pos (Nat.le_succ F.fractionBits)))
    have hprev := hmono.monotone hhigh
    have hstep := hmono (Nat.lt_succ_self m)
    rw [hlast, Nat.cast_pow, Nat.cast_ofNat] at hprev
    refine iff_of_false (by omega) ?_
    rw [Passes, ← Nat.succ_eq_add_one]
    rintro (h | ⟨h, -⟩) <;> linarith

theorem lt_round_iff (hf : 0 < F.fractionBits) (hd : 0 < den) (hm : m < F.infinity) :
    m < F.round num den ↔ F.Passes (num / den) m := by
  rcases Nat.eq_zero_or_pos num with rfl | hn
  · have hnext : 0 < F.value (m + 1) :=
      (F.value_nonneg m).trans_lt (F.strictMono_value (Nat.lt_succ_self m))
    have hsum := add_pos_of_nonneg_of_pos (F.value_nonneg m) hnext
    refine iff_of_false (by simp [Format.round]) ?_
    unfold Passes
    simp only [Nat.cast_zero, zero_div, mul_zero, not_or, not_and]
    exact ⟨hsum.le.not_gt, fun h => absurd h hsum.ne'⟩
  · unfold Format.round
    rw [if_neg hn.ne']
    dsimp only
    obtain ⟨j, hj⟩ : ∃ j : Nat, max (floorLog2 num den - F.fractionBits) F.unitExponent =
        F.unitExponent + j := ⟨(max (floorLog2 num den - F.fractionBits) F.unitExponent -
          F.unitExponent).toNat, by omega⟩
    rw [hj, Nat.lt_min, and_iff_left hm, add_sub_cancel_left, Int.toNat_natCast, Nat.pow_eq]
    refine lt_count_iff hf hd ?_ ?_
    · have hlog : floorLog2 num den < (F.fractionBits + 1 : Nat) + (F.unitExponent + j) := by omega
      rwa [floorLog2_lt_iff hn hd, zpow_add₀ two_ne_zero, zpow_natCast] at hlog
    · by_cases hzero : j = 0
      · exact .inl hzero
      · have hlog : (F.fractionBits : Int) + (F.unitExponent + j) ≤ floorLog2 num den := by omega
        rw [le_floorLog2_iff hn hd, zpow_add₀ two_ne_zero, zpow_natCast] at hlog
        exact .inr hlog

theorem round_eq_nearest (hf : 0 < F.fractionBits) (hd : 0 < den) :
    F.round num den = F.nearest (num / den) := by
  obtain ⟨more, hmore⟩ := Nat.exists_eq_add_of_le (F.round_le_infinity num den)
  have hiff : ∀ m < F.infinity, m < F.round num den ↔ F.Passes (num / den) m :=
    fun m hm => lt_round_iff hf hd hm
  rw [nearest, hmore, Nat.count_add, Nat.count_of_forall, Nat.count_of_forall_not, Nat.add_zero]
  · intro m hm hpasses
    have := (hiff (F.round num den + m) (by omega)).mpr hpasses
    omega
  · exact fun m hm => (hiff m (by omega)).mp hm

end Format

theorem Double.toSingle_eq_narrowed (x : Double) : x.toSingle = x.narrowed := by
  unfold Double.toSingle Binary.convert Double.narrowed
  split
  · rfl
  · split
    · rfl
    · have hden : 0 < Nat.pow 2 (-Format.double.exponent x.magnitude).toNat :=
        Nat.pow_pos Nat.two_pos
      rw [Binary.ofScaled, Binary.ofRatio, Format.round_eq_nearest (F := .single) (by decide) hden,
        scaled_value]
      rfl

end FormulaGraph.Numeric
