import Mathlib.Algebra.Order.Field.Power
import Mathlib.Data.List.TakeWhile
import Mathlib.Data.Nat.Cast.Order.Field
import Mathlib.Data.Rat.Cast.Order
import Mathlib.Tactic.FieldSimp
import Mathlib.Tactic.IntervalCases
import Mathlib.Tactic.Linarith
import Mathlib.Tactic.NormNum
import Mathlib.Tactic.Positivity
import Mathlib.Tactic.Ring
import TraversalSql.Number.Notation
import TraversalSql.Number.Reading
import TraversalSql.Proofs.Doubles
import TraversalSql.Proofs.IntegerTexts

/-!
# Doubles read back from their text

The reals that round to a double form an interval around it (`Double.RoundsTo`). What is written
for a double is a decimal from this interval, and reading a decimal rounds it once, so the double
comes back. The interval is half a unit wide on either side, but for the lower side of a power of
two: there the unit is half as large, and a quotient from it is first rounded in that finer unit,
to a mantissa that carries into the exponent.
-/

set_option autoImplicit false

namespace TraversalSql

namespace Double

variable {x : Double} {v : ℚ}

/-! ## 1. Mantissa and exponent -/

theorem magnitude_eq (x : Double) :
    x.magnitude = (x.exponent + 1074).toNat * fullMantissa + x.mantissa := by
  unfold exponent mantissa fullMantissa
  split <;> omega

theorem mantissa_lt (x : Double) : x.mantissa < 2 * fullMantissa := by
  unfold mantissa fullMantissa
  split <;> omega

theorem le_exponent (x : Double) : -1074 ≤ x.exponent := by
  unfold exponent fullMantissa
  split <;> omega

/-- The unit is the least one, or the mantissa is full. -/
theorem exponent_eq_or_le (x : Double) : x.exponent = -1074 ∨ fullMantissa ≤ x.mantissa := by
  unfold exponent mantissa
  split
  · exact Or.inl rfl
  · exact Or.inr (Nat.le_add_right _ _)

theorem exponent_lt (hfinite : x.magnitude < infiniteMagnitude) : x.exponent < 972 := by
  unfold infiniteMagnitude at hfinite
  unfold exponent fullMantissa
  split <;> omega

theorem mantissa_pos (hx : x.magnitude ≠ 0) : 0 < x.mantissa := by
  unfold mantissa fullMantissa
  split <;> omega

theorem narrowBelow_iff (x : Double) :
    x.narrowBelow = true ↔ x.mantissa = fullMantissa ∧ -1074 < x.exponent := by
  simp only [narrowBelow, mantissa, exponent, fullMantissa, Bool.and_eq_true, beq_iff_eq,
    decide_eq_true_eq, gt_iff_lt]
  by_cases hsmall : x.magnitude < 0x10000000000000
  · simp only [hsmall, if_true]
    omega
  · simp only [hsmall, if_false]
    omega

/-- A double is given by its sign and its magnitude. -/
theorem ofMagnitude_magnitude (x : Double) : ofMagnitude x.negative x.magnitude = x := by
  obtain ⟨bits⟩ := x
  have hmask : (0x7FFFFFFFFFFFFFFF : UInt64).toNat = 2 ^ 63 - 1 := rfl
  have hmagnitude : (Double.mk bits).magnitude = bits.toNat % 2 ^ 63 := by
    rw [magnitude, UInt64.toNat_and, hmask, Nat.and_two_pow_sub_one_eq_mod]
  have hlt : (Double.mk bits).magnitude < 2 ^ 63 := hmagnitude ▸ Nat.mod_lt _ (by decide)
  have hbits := bits_ofMagnitude (Double.mk bits).negative hlt
  have hsign : (Double.mk bits).negative = decide (2 ^ 63 ≤ bits.toNat) := by
    simp only [Double.negative, ge_iff_le, UInt64.le_iff_toNat_le]
    rfl
  have hsize := bits.toNat_lt
  refine congrArg Double.mk (UInt64.toNat_inj.mp (hbits.trans ?_))
  rw [hmagnitude, hsign]
  by_cases hnegative : 2 ^ 63 ≤ bits.toNat
  · simp only [hnegative, decide_true, if_true]
    omega
  · simp only [hnegative, decide_false, Bool.false_eq_true, if_false]
    omega

/-! ## 2. What rounds to a double -/

/-- The lower end of the reals that round to a finite double. -/
def lowEnd (x : Double) : ℚ :=
  (x.mantissa - if x.narrowBelow then 1 / 4 else 1 / 2) * 2 ^ x.exponent

/-- The upper end. -/
def highEnd (x : Double) : ℚ := (x.mantissa + 1 / 2) * 2 ^ x.exponent

/-- The value lies between the ends of a finite double, or on an end if the mantissa is even. -/
structure RoundsTo (v : ℚ) (x : Double) : Prop where
  low : x.lowEnd < v ∨ x.lowEnd = v ∧ x.mantissa % 2 = 0
  high : v < x.highEnd ∨ v = x.highEnd ∧ x.mantissa % 2 = 0

theorem two_zpow_pos (e : ℤ) : (0 : ℚ) < 2 ^ e := by positivity

theorem RoundsTo.pos (h : RoundsTo v x) (hx : x.magnitude ≠ 0) : 0 < v := by
  have hmantissa : (1 : ℚ) ≤ x.mantissa := by exact_mod_cast mantissa_pos hx
  have hlow : 0 < x.lowEnd := by
    refine mul_pos ?_ (two_zpow_pos _)
    split <;> linarith
  obtain hlt | ⟨heq, -⟩ := h.low
  · exact hlow.trans hlt
  · exact heq ▸ hlow

/-! ## 3. Rounding a quotient -/

/-- A quotient is rounded to the natural that is at most a half away, and even if it is just a
half. -/
theorem roundHalfEven_eq {num den m : Nat} (hden : 0 < den)
    (hlow : 2 * (m * den) < 2 * num + den ∨ 2 * (m * den) = 2 * num + den ∧ m % 2 = 0)
    (hhigh : 2 * num < 2 * (m * den) + den ∨ 2 * num = 2 * (m * den) + den ∧ m % 2 = 0) :
    roundHalfEven num den = m := by
  have hdivide := Nat.div_add_mod' num den
  have hmod := Nat.mod_lt num hden
  have hless {a b : Nat} (h : a < b) : a * den + den ≤ b * den := by
    rw [← Nat.succ_mul]
    exact Nat.mul_le_mul_right _ h
  unfold roundHalfEven
  obtain hlt | heq | hgt := Nat.lt_trichotomy (num / den) m
  · -- the quotient is below and is rounded up
    have hnext := hless hlt
    obtain rfl : num / den + 1 = m := by
      by_contra hne
      have := hless (show num / den + 1 < m by omega)
      have hsucc := Nat.succ_mul (num / den) den
      simp only [Nat.succ_eq_add_one] at hsucc
      omega
    have hsucc := Nat.succ_mul (num / den) den
    simp only [Nat.succ_eq_add_one] at hsucc
    obtain hhalf | ⟨hhalf, heven⟩ := hlow
    · have hcompare : compare (2 * (num % den)) den = .gt := Nat.compare_eq_gt.mpr (by omega)
      simp [hcompare]
    · have hcompare : compare (2 * (num % den)) den = .eq := Nat.compare_eq_eq.mpr (by omega)
      simp only [hcompare]
      omega
  · subst heq
    obtain hhalf | ⟨hhalf, heven⟩ := hhigh
    · have hcompare : compare (2 * (num % den)) den = .lt := Nat.compare_eq_lt.mpr (by omega)
      simp [hcompare]
    · have hcompare : compare (2 * (num % den)) den = .eq := Nat.compare_eq_eq.mpr (by omega)
      simp only [hcompare]
      omega
  · have := hless hgt
    omega

/-- A power with an integer exponent, as a quotient of naturals. -/
theorem zpow_eq_div {b : ℚ} (hb : b ≠ 0) (e : ℤ) : b ^ e = b ^ e.toNat / b ^ (-e).toNat := by
  rw [eq_div_iff (pow_ne_zero _ hb), ← zpow_natCast, ← zpow_natCast, ← zpow_add₀ hb]
  congr 1
  omega

theorem inUnits_div (num den : Nat) (e : ℤ) :
    ((inUnits num den e).1 : ℚ) / (inUnits num den e).2 = num / den / 2 ^ e := by
  rw [zpow_eq_div two_ne_zero]
  simp only [inUnits, Nat.shiftLeft_eq, Nat.cast_mul, Nat.cast_pow, Nat.cast_ofNat]
  rw [div_div_div_eq]

theorem inUnits_pos {num den : Nat} (hden : 0 < den) (e : ℤ) : 0 < (inUnits num den e).2 := by
  simp only [inUnits, Nat.shiftLeft_eq]
  positivity

/-- The quotient in units of `2 ^ e`, compared with a natural. -/
theorem inUnits_lt_iff {num den : Nat} (hden : 0 < den) (e : ℤ) (k : Nat) :
    (inUnits num den e).1 < (inUnits num den e).2 * k ↔ (num : ℚ) / den < k * 2 ^ e := by
  have hpos : (0 : ℚ) < (inUnits num den e).2 := by exact_mod_cast inUnits_pos hden e
  rw [← div_lt_iff₀ (two_zpow_pos e), ← inUnits_div, div_lt_iff₀ hpos, mul_comm (k : ℚ)]
  exact_mod_cast Iff.rfl

theorem log2_div_bounds {num den : Nat} (hnum : num ≠ 0) (hden : den ≠ 0) :
    (2 : ℚ) ^ ((num.log2 : ℤ) - den.log2 - 1) < num / den ∧
      (num : ℚ) / den < 2 ^ ((num.log2 : ℤ) - den.log2 + 1) := by
  have hn : (2 : ℚ) ^ (num.log2 : ℤ) ≤ num := by
    rw [zpow_natCast]
    exact_mod_cast Nat.log2_self_le hnum
  have hn' : (num : ℚ) < 2 ^ ((num.log2 : ℤ) + 1) := by
    rw [show ((num.log2 : ℤ) + 1) = ((num.log2 + 1 : ℕ) : ℤ) by push_cast; rfl, zpow_natCast]
    exact_mod_cast Nat.lt_log2_self
  have hd : (2 : ℚ) ^ (den.log2 : ℤ) ≤ den := by
    rw [zpow_natCast]
    exact_mod_cast Nat.log2_self_le hden
  have hd' : (den : ℚ) < 2 ^ ((den.log2 : ℤ) + 1) := by
    rw [show ((den.log2 : ℤ) + 1) = ((den.log2 + 1 : ℕ) : ℤ) by push_cast; rfl, zpow_natCast]
    exact_mod_cast Nat.lt_log2_self
  have hpos : (0 : ℚ) < den := by exact_mod_cast Nat.pos_of_ne_zero hden
  constructor
  · rw [lt_div_iff₀ hpos]
    calc (2 : ℚ) ^ ((num.log2 : ℤ) - den.log2 - 1) * den
        < 2 ^ ((num.log2 : ℤ) - den.log2 - 1) * 2 ^ ((den.log2 : ℤ) + 1) :=
          mul_lt_mul_of_pos_left hd' (two_zpow_pos _)
      _ = 2 ^ (num.log2 : ℤ) := by rw [← zpow_add₀ two_ne_zero]; congr 1; ring
      _ ≤ num := hn
  · rw [div_lt_iff₀ hpos]
    calc (num : ℚ) < 2 ^ ((num.log2 : ℤ) + 1) := hn'
      _ = 2 ^ ((num.log2 : ℤ) - den.log2 + 1) * 2 ^ (den.log2 : ℤ) := by
          rw [← zpow_add₀ two_ne_zero]; congr 1; ring
      _ ≤ 2 ^ ((num.log2 : ℤ) - den.log2 + 1) * den :=
          mul_le_mul_of_nonneg_left hd (two_zpow_pos _).le

/-- The unit a quotient is rounded in: the one that leaves fifty-three bits, or the least one. -/
theorem exists_unit {num den : Nat} (hnum : num ≠ 0) (hden : 0 < den) :
    ∃ u : ℤ, -1074 ≤ u ∧ (u = -1074 ∨ 2 ^ 52 * 2 ^ u ≤ (num : ℚ) / den) ∧
      (num : ℚ) / den < 2 ^ 53 * 2 ^ u ∧
      nearestMagnitude num den = min infiniteMagnitude ((u + 1074).toNat * fullMantissa
        + roundHalfEven (inUnits num den u).1 (inUnits num den u).2) := by
  obtain ⟨hlow, hhigh⟩ := log2_div_bounds hnum hden.ne'
  have hcast : ((fullMantissa : Nat) : ℚ) = 2 ^ 52 := by norm_num [fullMantissa]
  have hshift (k : ℕ) (e : ℤ) : (2 : ℚ) ^ k * 2 ^ e = 2 ^ (k + e) := by
    rw [zpow_add₀ two_ne_zero, zpow_natCast]
  -- the unit that leaves fifty-three bits
  obtain ⟨w, hw, hfull, hbits⟩ : ∃ w : ℤ,
      (if (inUnits num den ((num.log2 : ℤ) - den.log2 - 52)).1
          < (inUnits num den ((num.log2 : ℤ) - den.log2 - 52)).2 * fullMantissa
        then (num.log2 : ℤ) - den.log2 - 52 - 1 else (num.log2 : ℤ) - den.log2 - 52) = w ∧
      (2 : ℚ) ^ 52 * 2 ^ w ≤ (num : ℚ) / den ∧ (num : ℚ) / den < 2 ^ 53 * 2 ^ w := by
    split
    case isTrue hless =>
      rw [inUnits_lt_iff hden, hcast] at hless
      refine ⟨_, rfl, ?_, hless.trans_eq ?_⟩
      · rw [hshift]
        refine le_of_eq_of_le ?_ hlow.le
        congr 1
        push_cast
        ring
      · rw [hshift, hshift]
        congr 1
        push_cast
        ring
    case isFalse hmore =>
      rw [inUnits_lt_iff hden, hcast] at hmore
      refine ⟨_, rfl, not_lt.mp hmore, hhigh.trans_eq ?_⟩
      rw [hshift]
      congr 1
      push_cast
      ring
  refine ⟨max w (-1074), le_max_right _ _, ?_, ?_, ?_⟩
  · obtain h | h := max_choice w (-1074)
    · rw [h]
      exact Or.inr hfull
    · exact Or.inl h
  · refine hbits.trans_le (mul_le_mul_of_nonneg_left ?_ (by positivity))
    exact zpow_le_zpow_right₀ one_le_two (le_max_left _ _)
  · subst hw
    simp only [nearestMagnitude, if_neg hnum]

/-- The rounded quotient, by its distance from a natural in the given unit. -/
theorem roundHalfEven_inUnits {num den m : Nat} (hden : 0 < den) (u : ℤ)
    (hlow : (m - 1 / 2) * 2 ^ u < (num : ℚ) / den ∨
      (m - 1 / 2) * 2 ^ u = (num : ℚ) / den ∧ m % 2 = 0)
    (hhigh : (num : ℚ) / den < (m + 1 / 2) * 2 ^ u ∨
      (num : ℚ) / den = (m + 1 / 2) * 2 ^ u ∧ m % 2 = 0) :
    roundHalfEven (inUnits num den u).1 (inUnits num den u).2 = m := by
  have hpos : 0 < (inUnits num den u).2 := inUnits_pos hden u
  have hdiv := inUnits_div num den u
  generalize (inUnits num den u).1 = n at hdiv ⊢
  generalize (inUnits num den u).2 = d at hpos hdiv ⊢
  have hd : (0 : ℚ) < d := by exact_mod_cast hpos
  have hvalue : (num : ℚ) / den = n / d * 2 ^ u := by
    rw [hdiv, div_mul_cancel₀ _ (two_zpow_pos u).ne']
  simp only [hvalue, mul_lt_mul_iff_left₀ (two_zpow_pos u), mul_left_inj' (two_zpow_pos u).ne',
    lt_div_iff₀ hd, div_lt_iff₀ hd, eq_div_iff hd.ne', div_eq_iff hd.ne'] at hlow hhigh
  refine roundHalfEven_eq hpos ?_ ?_
  · refine hlow.imp (fun h => ?_) fun h => ⟨?_, h.2⟩
    · have : (2 * (m * d) : ℚ) < 2 * n + d := by linarith
      exact_mod_cast this
    · have : (2 * (m * d) : ℚ) = 2 * n + d := by linarith [h.1]
      exact_mod_cast this
  · refine hhigh.imp (fun h => ?_) fun h => ⟨?_, h.2⟩
    · have : (2 * n : ℚ) < 2 * (m * d) + d := by linarith
      exact_mod_cast this
    · have : (2 * n : ℚ) = 2 * (m * d) + d := by linarith [h.1]
      exact_mod_cast this

theorem highEnd_lt (x : Double) : x.highEnd < 2 ^ 53 * 2 ^ x.exponent := by
  refine mul_lt_mul_of_pos_right ?_ (two_zpow_pos _)
  have : (x.mantissa : ℚ) + 1 ≤ 2 ^ 53 := by exact_mod_cast mantissa_lt x
  linarith

theorem le_lowEnd (x : Double) : (x.mantissa - 1 / 2) * 2 ^ x.exponent ≤ x.lowEnd := by
  refine mul_le_mul_of_nonneg_right ?_ (two_zpow_pos _).le
  split <;> linarith

/-- The least unit, and with it twice as many of them. -/
theorem mul_two_zpow_le {u e : ℤ} (h : u < e) {a : ℚ} (ha : 0 ≤ a) : 2 * a * 2 ^ u ≤ a * 2 ^ e := by
  have hdouble : 2 * a * 2 ^ u = a * 2 ^ (u + 1) := by
    rw [zpow_add_one₀ two_ne_zero]
    ring
  rw [hdouble]
  exact mul_le_mul_of_nonneg_left (zpow_le_zpow_right₀ one_le_two h) ha

section Rounding

variable {u : ℤ}

/-- In a coarser unit the value would have a bit more than fit. -/
theorem not_coarser (hlow : u = -1074 ∨ 2 ^ 52 * 2 ^ u ≤ v) (hhigh : v ≤ x.highEnd) :
    ¬ x.exponent < u := by
  intro hlt
  have hexponent := le_exponent x
  have hfull := hlow.resolve_left (by omega)
  have hbits := mul_two_zpow_le hlt (a := 2 ^ 52) (by positivity)
  have hend := highEnd_lt x
  linarith

/-- In a finer unit the value is just below a power of two, where the unit is half as large. -/
theorem finer_eq (hu : -1074 ≤ u) (hfiner : u < x.exponent) (hlow : x.lowEnd ≤ v)
    (hhigh : v < 2 ^ 53 * 2 ^ u) :
    u + 1 = x.exponent ∧ x.mantissa = fullMantissa ∧ (2 ^ 53 - 1 / 2) * 2 ^ u ≤ v := by
  have hpos := two_zpow_pos x.exponent
  have hnormal := (exponent_eq_or_le x).resolve_left (by omega)
  have hbelow : v < 2 ^ 52 * 2 ^ x.exponent := by
    have hbits := mul_two_zpow_le hfiner (a := 2 ^ 52) (by positivity)
    linarith
  have hmantissa : x.mantissa = fullMantissa := by
    have hlt := lt_of_mul_lt_mul_right ((le_lowEnd x).trans_lt (hlow.trans_lt hbelow)) hpos.le
    have : (x.mantissa : ℚ) < 2 ^ 52 + 1 := by linarith
    have : x.mantissa < 2 ^ 52 + 1 := by exact_mod_cast this
    exact le_antisymm (Nat.lt_succ_iff.mp this) hnormal
  have hend : x.lowEnd = (2 ^ 52 - 1 / 4) * 2 ^ x.exponent := by
    rw [lowEnd, if_pos (x.narrowBelow_iff.mpr ⟨hmantissa, by omega⟩), hmantissa]
    norm_num [fullMantissa]
  have hnext : u + 1 = x.exponent := by
    by_contra hne
    have hquarter :=
      mul_two_zpow_le (show u + 1 < x.exponent by omega) (a := 2 ^ 51) (by positivity)
    have hhalf := mul_two_zpow_le (show u < u + 1 by omega) (a := 2 * 2 ^ 51) (by positivity)
    have : (2 : ℚ) ^ 51 * 2 ^ x.exponent < x.lowEnd := by
      rw [hend]
      exact mul_lt_mul_of_pos_right (by norm_num) hpos
    linarith
  refine ⟨hnext, hmantissa, le_of_eq_of_le ?_ hlow⟩
  rw [hend, ← hnext, zpow_add_one₀ two_ne_zero]
  ring

end Rounding

/-- **Rounding.** A quotient between the ends of a finite double is rounded to it. -/
theorem nearestMagnitude_of_roundsTo {num den : Nat} (hden : 0 < den)
    (hfinite : x.magnitude < infiniteMagnitude) (hx : x.magnitude ≠ 0)
    (h : RoundsTo ((num : ℚ) / den) x) : nearestMagnitude num den = x.magnitude := by
  have hvalue := h.pos hx
  have hnum : num ≠ 0 := by
    rintro rfl
    simp at hvalue
  obtain ⟨u, hu, hfull, hbits, heq⟩ := exists_unit hnum hden
  have hhigh : (num : ℚ) / den ≤ x.highEnd := h.high.elim le_of_lt fun h => h.1.le
  have hlow : x.lowEnd ≤ (num : ℚ) / den := h.low.elim le_of_lt fun h => h.1.le
  have hsum : (u + 1074).toNat * fullMantissa
      + roundHalfEven (inUnits num den u).1 (inUnits num den u).2 = x.magnitude := by
    obtain hfiner | rfl | hcoarser := lt_trichotomy u x.exponent
    · obtain ⟨hnext, hmantissa, hhalf⟩ := finer_eq hu hfiner hlow hbits
      have hpower : ((2 ^ 53 : Nat) : ℚ) = 2 ^ 53 := by norm_num
      have hround : roundHalfEven (inUnits num den u).1 (inUnits num den u).2 = 2 ^ 53 :=
        roundHalfEven_inUnits hden u
        (by rw [hpower]; exact hhalf.lt_or_eq.imp_right fun h => ⟨h, by decide⟩)
        (Or.inl (hbits.trans_le (mul_le_mul_of_nonneg_right (by rw [hpower]; linarith)
          (two_zpow_pos u).le)))
      rw [hround, magnitude_eq x, hmantissa, ← hnext,
        show (u + 1 + 1074).toNat = (u + 1074).toNat + 1 by omega, Nat.add_mul]
      unfold fullMantissa
      omega
    · rw [magnitude_eq x, roundHalfEven_inUnits hden x.exponent ?_ h.high]
      cases hnarrow : x.narrowBelow with
      | true =>
        refine Or.inl (lt_of_lt_of_le ?_ hlow)
        rw [lowEnd, if_pos hnarrow]
        exact mul_lt_mul_of_pos_right (by linarith) (two_zpow_pos _)
      | false =>
        have hend := h.low
        rwa [lowEnd, if_neg (by simp [hnarrow])] at hend
    · exact absurd hcoarser (not_coarser hfull hhigh)
  rw [heq, hsum]
  exact Nat.min_eq_right hfinite.le

/-! ## 4. The shortest decimal -/

/-- The comparison of a decimal with a quotient of naturals is that of their values. -/
theorem compareScaled_eq {num den : Nat} (hden : 0 < den) (a : Nat) (p : ℤ) :
    compareScaled a p num den = compare ((a : ℚ) * 10 ^ p) (num / den) := by
  have hd : (0 : ℚ) < den := by exact_mod_cast hden
  have hten : (0 : ℚ) < 10 ^ (-p).toNat := by positivity
  have hvalue : (a : ℚ) * 10 ^ p = a * 10 ^ p.toNat / 10 ^ (-p).toNat := by
    rw [zpow_eq_div (by norm_num), mul_div_assoc]
  have hlt : (a : ℚ) * 10 ^ p < num / den
      ↔ a * Nat.pow 10 p.toNat * den < num * Nat.pow 10 (-p).toNat := by
    rw [hvalue, div_lt_div_iff₀ hten hd]
    exact_mod_cast Iff.rfl
  have heq : (a : ℚ) * 10 ^ p = num / den
      ↔ a * Nat.pow 10 p.toNat * den = num * Nat.pow 10 (-p).toNat := by
    rw [hvalue, div_eq_div_iff hten.ne' hd.ne']
    exact_mod_cast Iff.rfl
  unfold compareScaled
  obtain h | h | h := lt_trichotomy ((a : ℚ) * 10 ^ p) (num / den)
  · rw [compare_lt_iff_lt.mpr h, Nat.compare_eq_lt.mpr (hlt.mp h)]
  · rw [compare_eq_iff_eq.mpr h, Nat.compare_eq_eq.mpr (heq.mp h)]
  · rw [compare_gt_iff_gt.mpr h, Nat.compare_eq_gt]
    exact lt_of_le_of_ne (not_lt.mp (mt hlt.mpr h.not_gt)) (mt heq.mpr h.ne' ∘ Eq.symm)

/-- The value behind the grids is that of the double. -/
theorem exact_value (m : Nat) (e : ℤ) :
    ((m <<< e.toNat * Nat.pow 5 (-e).toNat : Nat) : ℚ) * 10 ^ min e 0 = m * 2 ^ e := by
  rw [Nat.shiftLeft_eq, Nat.pow_eq]
  push_cast
  rw [zpow_eq_div two_ne_zero e]
  obtain hsign | hsign := le_total 0 e
  · rw [min_eq_right hsign, show (-e).toNat = 0 by omega]
    simp
  · have hten : (10 : ℚ) ^ e = 1 / (5 ^ (-e).toNat * 2 ^ (-e).toNat) := by
      rw [zpow_eq_div (by norm_num), show e.toNat = 0 by omega, ← mul_pow]
      norm_num
    rw [min_eq_left hsign, hten, show e.toNat = 0 by omega]
    field_simp

theorem readsBack_iff (hx : x.magnitude ≠ 0) (a : Nat) (p : ℤ) :
    x.readsBack a p = true ↔ RoundsTo ((a : ℚ) * 10 ^ p) x := by
  have hmantissa := mantissa_pos hx
  have hscale (k : Nat) : ((k <<< x.exponent.toNat : Nat) : ℚ)
      / ((4 <<< (-x.exponent).toNat : Nat) : ℚ) = k / 4 * 2 ^ x.exponent := by
    rw [zpow_eq_div two_ne_zero, Nat.shiftLeft_eq, Nat.shiftLeft_eq]
    push_cast
    rw [div_mul_div_comm]
  have hden : 0 < 4 <<< (-x.exponent).toNat := by
    rw [Nat.shiftLeft_eq]
    positivity
  have hlow : ((4 * x.mantissa - (if x.narrowBelow then 1 else 2) : Nat) : ℚ) / 4
      * 2 ^ x.exponent = x.lowEnd := by
    rw [lowEnd, Nat.cast_sub (by split <;> omega)]
    split <;> push_cast <;> ring
  have hhigh : ((4 * x.mantissa + 2 : Nat) : ℚ) / 4 * 2 ^ x.exponent = x.highEnd := by
    rw [highEnd]
    push_cast
    ring
  simp only [readsBack, compareScaled_eq hden, hscale, hlow, hhigh, Bool.and_eq_true,
    Bool.or_eq_true, beq_iff_eq, compare_gt_iff_gt, compare_eq_iff_eq, compare_lt_iff_lt]
  constructor
  · rintro ⟨h, h'⟩
    exact ⟨h.imp_right fun h => ⟨h.2.symm, h.1⟩, h'.imp_right fun h => ⟨h.2, h.1⟩⟩
  · rintro ⟨h, h'⟩
    exact ⟨h.imp_right fun h => ⟨h.2, h.1.symm⟩, h'.imp_right fun h => ⟨h.2, h.1⟩⟩

/-- Both neighbours on a grid are tried before one is taken. -/
theorem readsBack_of_hitOn {tie : Tie} {p : ℤ} {a : Nat} (h : hitOn tie x p = some a) :
    x.readsBack a p = true := by
  unfold hitOn at h
  dsimp only at h
  split at h
  · rename_i hbelow _
    cases h
    exact hbelow
  · rename_i _ habove
    cases h
    exact habove
  · cases h
  · rename_i hbelow habove
    split at h <;> cases h
    · exact hbelow
    · exact habove
    · exact habove
    · split
      · exact hbelow
      · exact habove

/-- A double lies between its own ends. -/
theorem roundsTo_self (x : Double) : RoundsTo ((x.mantissa : ℚ) * 2 ^ x.exponent) x := by
  have hpos := two_zpow_pos x.exponent
  refine ⟨Or.inl ?_, Or.inl ?_⟩
  · rw [lowEnd]
    refine mul_lt_mul_of_pos_right ?_ hpos
    split <;> linarith
  · exact mul_lt_mul_of_pos_right (by linarith) hpos

/-- **The shortest decimal** rounds to the double, also where the search gives up. -/
theorem exists_shortest (tie : Tie) (hx : x.magnitude ≠ 0) :
    ∃ a p, x.shortest tie = Decimal.ofScaled a p ∧ RoundsTo ((a : ℚ) * 10 ^ p) x := by
  unfold shortest
  dsimp only
  split
  · rename_i d hfound
    obtain ⟨_, n, _, _, hn, _⟩ := List.findSome?_eq_some_iff.mp hfound
    obtain ⟨a, ha, rfl⟩ := Option.map_eq_some_iff.mp hn
    exact ⟨a, _, rfl, (readsBack_iff hx _ _).mp (readsBack_of_hitOn ha)⟩
  · refine ⟨_, _, rfl, ?_⟩
    rw [exact_value]
    exact roundsTo_self x

/-! ## 5. Digits around a point -/

/-- A point and the digits behind it, if there are any. -/
def pointed (fraction : List Char) : List Char := if fraction.isEmpty then [] else '.' :: fraction

/-- The digits before and behind a point spell the value, a whole number without zeros in front. -/
structure Writes (whole fraction : List Char) (v : ℚ) : Prop where
  isDigit : ∀ c ∈ whole ++ fraction, c.isDigit = true
  ne_nil : whole ≠ []
  value : (Nat.ofDigitChars 10 (whole ++ fraction) 0 : ℚ) * 10 ^ (-(fraction.length : ℤ)) = v
  head : fraction = [] → whole.head? ≠ some '0'

theorem head?_toDigits {n : Nat} (hn : n ≠ 0) : (Nat.toDigits 10 n).head? ≠ some '0' := by
  induction n using Nat.strongRecOn with
  | ind n ih =>
    rw [Nat.toDigits_eq_if (by decide)]
    split
    case isTrue hlt =>
      interval_cases n <;> simp_all
    case isFalse hle =>
      rw [List.head?_append_of_ne_nil _ Nat.toDigits_ne_nil]
      exact ih (n / 10) (Nat.div_lt_self (Nat.pos_of_ne_zero hn) (by decide)) (by omega)

/-- The digits of a natural, and the zeros at their end. -/
theorem exists_stripped (a : Nat) :
    ∃ k, Nat.toDigits 10 a = (Decimal.ofScaled a 0).digits ++ List.replicate k '0' := by
  have hsplit :=
    List.takeWhile_append_dropWhile (p := (· == '0')) (l := (Nat.toDigits 10 a).reverse)
  have hzeros : ∀ c ∈ (Nat.toDigits 10 a).reverse.takeWhile (· == '0'), c = '0' := by
    intro c hc
    simpa using List.mem_takeWhile_imp hc
  refine ⟨((Nat.toDigits 10 a).reverse.takeWhile (· == '0')).length, ?_⟩
  have hreverse := congrArg List.reverse hsplit
  rw [List.reverse_append, List.reverse_reverse, List.eq_replicate_of_mem hzeros,
    List.reverse_replicate] at hreverse
  exact hreverse.symm

theorem length_zeros (n : Nat) : (zeros n).length = n := List.length_replicate

theorem isDigit_zeros {n : Nat} {c : Char} (h : c ∈ zeros n) : c.isDigit = true := by
  rw [List.eq_of_mem_replicate h]
  rfl

/-- Positional text spells the value of its digits before the point is moved to its place. -/
theorem Decimal.exists_writes (d : Decimal) (hdigit : ∀ c ∈ d.digits, c.isDigit = true)
    (hne : d.digits ≠ []) (hhead : d.digits.head? ≠ some '0') : ∃ whole fraction,
    d.positional = whole ++ pointed fraction ∧ Writes whole fraction
      ((Nat.ofDigitChars 10 d.digits 0 : ℚ) * 10 ^ (d.point - d.digits.length)) := by
  obtain ⟨ds, point⟩ := d
  unfold Decimal.positional
  dsimp only at hdigit hne hhead ⊢
  split
  case isTrue hsmall =>
    -- nothing before the point, and zeros behind it
    refine ⟨['0'], zeros (-point).toNat ++ ds, by simp [pointed, hne], ?_, by simp, ?_,
      by simp [hne]⟩
    · intro c hc
      simp only [List.mem_append, List.mem_singleton] at hc
      obtain rfl | hc | hc := hc
      · rfl
      · exact isDigit_zeros hc
      · exact hdigit c hc
    · have hvalue : Nat.ofDigitChars 10 (['0'] ++ (zeros (-point).toNat ++ ds)) 0
          = Nat.ofDigitChars 10 ds 0 := by
        simp [Nat.ofDigitChars_append, zeros, Nat.ofDigitChars_replicate_zero,
          Nat.ofDigitChars_cons]
      rw [hvalue, List.length_append, length_zeros]
      congr 2
      push_cast
      omega
  case isFalse hlarge =>
    split
    case isTrue hwhole =>
      -- zeros up to the point, and nothing behind it
      refine ⟨ds ++ zeros (point.toNat - ds.length), [], by simp [pointed], ?_, by simp [hne], ?_,
        fun _ => by rwa [List.head?_append_of_ne_nil _ hne]⟩
      · intro c hc
        simp only [List.append_nil, List.mem_append] at hc
        exact hc.elim (hdigit c) isDigit_zeros
      · rw [List.append_nil, Nat.ofDigitChars_append, zeros, Nat.ofDigitChars_replicate_zero,
          show point - ds.length = ((point.toNat - ds.length : Nat) : ℤ) by omega, zpow_natCast]
        push_cast
        simp [mul_comm]
    case isFalse hsplit =>
      refine ⟨ds.take point.toNat, ds.drop point.toNat, ?_, ?_, ?_, ?_, ?_⟩
      · have hdrop : ds.drop point.toNat ≠ [] := by simpa using hsplit
        simp [pointed, hdrop]
      · rwa [List.take_append_drop]
      · simp only [ne_eq, List.take_eq_nil_iff, hne, or_false]
        omega
      · rw [List.take_append_drop, List.length_drop]
        congr 2
        omega
      · intro h
        rw [List.drop_eq_nil_iff] at h
        exact absurd h hsplit

theorem exists_positional {a : Nat} (ha : a ≠ 0) (p : ℤ) : ∃ whole fraction,
    (Decimal.ofScaled a p).positional = whole ++ pointed fraction ∧
      Writes whole fraction ((a : ℚ) * 10 ^ p) := by
  obtain ⟨k, hdigits⟩ := exists_stripped a
  have hvalue := Nat.ofDigitChars_ten_toDigits (n := a)
  have hall : ∀ c ∈ Nat.toDigits 10 a, c.isDigit = true :=
    fun c hc => Nat.isDigit_of_mem_toDigits (by decide) (by decide) hc
  have hhead := head?_toDigits ha
  have hpoint : (Decimal.ofScaled a p).point = (Nat.toDigits 10 a).length + p := rfl
  have hsame : (Decimal.ofScaled a p).digits = (Decimal.ofScaled a 0).digits := rfl
  rw [hdigits, ← hsame] at hvalue hall hhead hpoint
  rw [Nat.ofDigitChars_append, Nat.ofDigitChars_replicate_zero] at hvalue
  have hne : (Decimal.ofScaled a p).digits ≠ [] := by
    intro hnil
    rw [hnil] at hvalue
    simp at hvalue
    exact ha hvalue.symm
  rw [List.head?_append_of_ne_nil _ hne] at hhead
  obtain ⟨whole, fraction, htext, hwrites⟩ := (Decimal.ofScaled a p).exists_writes
    (fun c hc => hall c (List.mem_append_left _ hc)) hne hhead
  refine ⟨whole, fraction, htext, ?_⟩
  have hscaled : (Nat.ofDigitChars 10 (Decimal.ofScaled a p).digits 0 : ℚ)
      * 10 ^ ((Decimal.ofScaled a p).point - (Decimal.ofScaled a p).digits.length)
        = (a : ℚ) * 10 ^ p := by
    rw [hpoint, List.length_append, List.length_replicate]
    generalize (Decimal.ofScaled a p).digits = ds at hvalue ⊢
    have hplace : ((ds.length + k : ℕ) : ℤ) + p - ds.length = k + p := by
      push_cast
      ring
    rw [hplace, zpow_add₀ (by norm_num), zpow_natCast, ← hvalue]
    push_cast
    ring
  rwa [hscaled] at hwrites

/-! ## 6. Reading digits -/

theorem pow_length_le {n : Nat} (hn : n ≠ 0) : 10 ^ ((Nat.toDigits 10 n).length - 1) ≤ n := by
  by_contra hlt
  have hpos := Nat.length_toDigits_pos (b := 10) (n := n)
  by_cases hone : (Nat.toDigits 10 n).length = 1
  · rw [hone] at hlt
    omega
  · have hle := (Nat.length_toDigits_le_iff (b := 10) (by decide)
      (show 0 < (Nat.toDigits 10 n).length - 1 by omega)).mpr (not_le.mp hlt)
    omega

theorem lt_pow_length (n : Nat) : n < 10 ^ (Nat.toDigits 10 n).length :=
  (Nat.length_toDigits_le_iff (by decide) Nat.length_toDigits_pos).mp le_rfl

/-- The values that round to a finite double other than zero are far from the exponents that are
settled by the length of the digits. -/
theorem RoundsTo.bounds (h : RoundsTo v x) (hfinite : x.magnitude < infiniteMagnitude)
    (hx : x.magnitude ≠ 0) : (10 : ℚ) ^ (-331 : ℤ) ≤ v ∧ v < 10 ^ (310 : ℤ) := by
  have hlow : x.lowEnd ≤ v := h.low.elim le_of_lt fun h => h.1.le
  have hhigh : v ≤ x.highEnd := h.high.elim le_of_lt fun h => h.1.le
  constructor
  · have hmantissa : (1 : ℚ) ≤ x.mantissa := by exact_mod_cast mantissa_pos hx
    have hpowers : (2 : ℚ) ^ 1075 ≤ 10 ^ 331 := by
      exact_mod_cast (by decide +kernel : 2 ^ 1075 ≤ 10 ^ 331)
    calc (10 : ℚ) ^ (-331 : ℤ) = (10 ^ 331)⁻¹ := by rw [zpow_neg, zpow_ofNat]
      _ ≤ (2 ^ 1075)⁻¹ := inv_anti₀ (by positivity) hpowers
      _ = 1 / 2 * 2 ^ (-1074 : ℤ) := by
          rw [zpow_neg, zpow_ofNat, show (2 : ℚ) ^ 1075 = 2 ^ 1074 * 2 from pow_succ 2 1074,
            mul_inv, mul_comm, one_div]
      _ ≤ (x.mantissa - 1 / 2) * 2 ^ x.exponent :=
          mul_le_mul (by linarith) (zpow_le_zpow_right₀ one_le_two (le_exponent x))
            (by positivity) (by linarith)
      _ ≤ v := (le_lowEnd x).trans hlow
  · calc v < 2 ^ 53 * 2 ^ x.exponent := hhigh.trans_lt (highEnd_lt x)
      _ ≤ 2 ^ 53 * 2 ^ (971 : ℤ) := mul_le_mul_of_nonneg_left
          (zpow_le_zpow_right₀ one_le_two (Int.lt_add_one_iff.mp (exponent_lt hfinite)))
          (by positivity)
      _ ≤ 10 ^ (310 : ℤ) := by
          rw [zpow_ofNat, zpow_ofNat, ← pow_add]
          exact_mod_cast (by decide +kernel : 2 ^ (53 + 971) ≤ 10 ^ 310)

/-- A decimal is read as the double it rounds to. -/
theorem ofDecimal_of_roundsTo {digits : Nat} {exp : ℤ} (negative : Bool)
    (hfinite : x.magnitude < infiniteMagnitude) (hx : x.magnitude ≠ 0)
    (h : RoundsTo ((digits : ℚ) * 10 ^ exp) x) :
    ofDecimal negative digits exp = ofMagnitude negative x.magnitude := by
  obtain ⟨hlow, hhigh⟩ := h.bounds hfinite hx
  have hdigits : digits ≠ 0 := by
    rintro rfl
    simpa using h.pos hx
  have hten : (1 : ℚ) ≤ 10 := by norm_num
  have hpos : (0 : ℚ) < 10 ^ exp := by positivity
  have hlong : ¬ ((Nat.toDigits 10 digits).length : ℤ) + exp > 310 := by
    intro hlong
    have hdigit : (10 : ℚ) ^ ((Nat.toDigits 10 digits).length - 1) ≤ digits := by
      exact_mod_cast pow_length_le hdigits
    have hlength := Nat.length_toDigits_pos (b := 10) (n := digits)
    have : (10 : ℚ) ^ (310 : ℤ) ≤ digits * 10 ^ exp :=
      calc (10 : ℚ) ^ (310 : ℤ) ≤ 10 ^ ((((Nat.toDigits 10 digits).length - 1 : ℕ) : ℤ) + exp) :=
            zpow_le_zpow_right₀ hten (by omega)
        _ = 10 ^ ((Nat.toDigits 10 digits).length - 1) * 10 ^ exp := by
            rw [zpow_add₀ (by norm_num), zpow_natCast]
        _ ≤ digits * 10 ^ exp := mul_le_mul_of_nonneg_right hdigit hpos.le
    linarith
  have hshort : ¬ ((Nat.toDigits 10 digits).length : ℤ) + exp < -330 := by
    intro hshort
    have hdigit : (digits : ℚ) < 10 ^ (Nat.toDigits 10 digits).length := by
      exact_mod_cast lt_pow_length digits
    have : (digits : ℚ) * 10 ^ exp < 10 ^ (-331 : ℤ) :=
      calc (digits : ℚ) * 10 ^ exp < 10 ^ (Nat.toDigits 10 digits).length * 10 ^ exp :=
            mul_lt_mul_of_pos_right hdigit hpos
        _ = 10 ^ (((Nat.toDigits 10 digits).length : ℤ) + exp) := by
            rw [zpow_add₀ (by norm_num), zpow_natCast]
        _ ≤ 10 ^ (-331 : ℤ) := zpow_le_zpow_right₀ hten (by omega)
    linarith
  have hquotient : ((digits * Nat.pow 10 exp.toNat : ℕ) : ℚ) / ((Nat.pow 10 (-exp).toNat : ℕ) : ℚ)
      = digits * 10 ^ exp := by
    rw [zpow_eq_div (by norm_num) exp]
    push_cast [Nat.pow_eq]
    rw [mul_div_assoc]
  simp only [ofDecimal, if_neg hdigits, if_neg hlong, if_neg hshort, nearest]
  exact congrArg (ofMagnitude negative)
    (nearestMagnitude_of_roundsTo (Nat.pow_pos (by decide)) hfinite hx (by rwa [hquotient]))

end Double

namespace Reading

open Double

variable {whole fraction : List Char} {v : ℚ}

theorem span_append {p : Char → Bool} {w rest : List Char} (hw : ∀ c ∈ w, p c = true)
    (hrest : ∀ c ∈ rest.head?, p c = false) : (w ++ rest).span p = (w, rest) := by
  rw [List.span_eq_takeWhile_dropWhile, List.takeWhile_append_of_pos hw,
    List.dropWhile_append_of_pos hw]
  cases rest with
  | nil => simp
  | cons c rest => simp [hrest c rfl]

theorem naturalOf_eq (cs : List Char) : naturalOf cs = Nat.ofDigitChars 10 cs 0 := by
  rw [Nat.ofDigitChars_eq_foldl]
  simp only [naturalOf, Nat.mul_comm]

theorem unsignedDouble?_writes (h : Writes whole fraction v) (negative : Bool) :
    unsignedDouble? negative (whole ++ pointed fraction)
      = some (ofDecimal negative (Nat.ofDigitChars 10 (whole ++ fraction) 0)
          (-(fraction.length : ℤ))) := by
  have hwhole : ∀ c ∈ whole, c.isDigit = true := fun c hc => h.isDigit c (List.mem_append_left _ hc)
  have hfraction : ∀ c ∈ fraction, c.isDigit = true :=
    fun c hc => h.isDigit c (List.mem_append_right _ hc)
  have hspan : spanDigits (whole ++ pointed fraction) = (whole, pointed fraction) := by
    refine span_append hwhole ?_
    unfold pointed
    split
    · simp
    · simp
  rw [unsignedDouble?, hspan, ← naturalOf_eq]
  unfold pointed
  cases fraction with
  | nil => simp [h.ne_nil]
  | cons c cs =>
    have hrest : spanDigits (c :: cs) = (c :: cs, []) := by
      have hspan : (c :: cs ++ []).span Char.isDigit = (c :: cs, []) :=
        span_append hfraction (by simp)
      rwa [List.append_nil] at hspan
    simp [hrest]

/-- No name begins with a digit. -/
theorem namedDouble?_eq_none {c : Char} {cs : List Char} (hc : c.isDigit = true) (negative : Bool) :
    namedDouble? negative (c :: cs) = none := by
  have hlower : c.toLower = c := by
    have hdigit := (Char.isDigit_iff_toNat.mp hc).2
    unfold Char.toLower
    refine dif_neg fun h => ?_
    have hletter : 'A'.toNat ≤ c.toNat := UInt32.le_iff_toNat_le.mp h.1
    exact absurd (hletter.trans hdigit) (by decide)
  have hname (name : String) (d : Char) (hd : name.toList.head? = some d)
      (hletter : d.isDigit = false) : String.ofList ((c :: cs).map Char.toLower) ≠ name := by
    intro heq
    have hlist := congrArg (List.head? ∘ String.toList) heq
    simp only [Function.comp_apply, String.toList_ofList, List.map_cons, List.head?_cons, hd,
      hlower, Option.some.injEq] at hlist
    rw [← hlist, hc] at hletter
    cases hletter
  unfold namedDouble?
  split
  · rename_i heq
    exact absurd heq (hname "inf" 'i' rfl rfl)
  · rename_i heq
    exact absurd heq (hname "infinity" 'i' rfl rfl)
  · rename_i heq
    exact absurd heq (hname "nan" 'n' rfl rfl)
  · rfl

end Reading

namespace Double

open Reading

variable {x : Double} {v : ℚ}

/-- A positional decimal that rounds to a double, behind a minus sign if that is negative. -/
theorem double?_signed {whole fraction : List Char} (hfinite : x.magnitude < infiniteMagnitude)
    (hx : x.magnitude ≠ 0) (h : Writes whole fraction v) (hv : RoundsTo v x) :
    double? (x.signed (whole ++ pointed fraction)) = some x := by
  obtain ⟨c, cs, rfl⟩ := List.exists_cons_of_ne_nil h.ne_nil
  have hc : c.isDigit = true := h.isDigit c (by simp)
  have hbody : double?.body x.negative (c :: cs ++ pointed fraction) = some x := by
    rw [double?.body, List.cons_append, namedDouble?_eq_none hc, Option.none_or,
      ← List.cons_append, unsignedDouble?_writes h, ofDecimal_of_roundsTo _ hfinite hx
        (by rwa [h.value]), ofMagnitude_magnitude]
  unfold double? signed
  cases hsign : x.negative with
  | true =>
    rw [hsign] at hbody
    simpa using hbody
  | false =>
    rw [hsign] at hbody
    simp only [Bool.false_eq_true, if_false, String.toList_ofList]
    split
    · rename_i heq
      obtain ⟨rfl, -⟩ := List.cons.inj heq
      cases hc
    · rename_i heq
      obtain ⟨rfl, -⟩ := List.cons.inj heq
      cases hc
    · exact hbody

/-! ## 7. The text of a double -/

theorem toList_signed (x : Double) (text : List Char) :
    (x.signed text).toList = if x.negative then '-' :: text else text := by
  rw [signed, String.toList_ofList]

/-- **The text of a double** that is finite and not zero: digits around a point, and what they are
read as is the double. -/
theorem exists_text (hfinite : x.magnitude < infiniteMagnitude) (hx : x.magnitude ≠ 0) :
    ∃ whole fraction v, Writes whole fraction v ∧
      x.text = x.signed (whole ++ pointed fraction) ∧ double? x.text = some x := by
  obtain ⟨a, p, hshortest, hrounds⟩ := exists_shortest .up hx
  have ha : a ≠ 0 := by
    rintro rfl
    simpa using hrounds.pos hx
  obtain ⟨whole, fraction, hpositional, hwrites⟩ := exists_positional ha p
  have htext : x.text = x.signed (whole ++ pointed fraction) := by
    have hnan : x.isNaN = false := by simpa [isNaN] using hfinite.le
    have hinfinite : x.isInfinite = false := by simpa [isInfinite] using hfinite.ne
    have hzero : x.isZero = false := by simpa [isZero] using hx
    simp [text, hnan, hinfinite, hzero, hshortest, hpositional]
  exact ⟨whole, fraction, _, hwrites, htext, htext ▸ double?_signed hfinite hx hwrites hrounds⟩

/-- If the text of a double is also the text of an integer, it is the one that messages use. -/
theorem intText_of_integer? {i : Int64} (hfinite : x.magnitude < infiniteMagnitude)
    (hx : x.magnitude ≠ 0) (h : integer? x.text = some i) : intText i = x.text := by
  obtain ⟨whole, fraction, v, hwrites, htext, -⟩ := exists_text hfinite hx
  have hintegral := integral_of_integer? h
  rw [htext, toList_signed] at hintegral
  have hdot : '.' ∉ whole ++ pointed fraction := by
    intro hmem
    have hdot := hintegral.mem (c := '.') (by split <;> simp [hmem])
    revert hdot
    decide
  have hnil : fraction = [] := by
    by_contra hne
    exact hdot (by simp [pointed, hne])
  subst hnil
  have hwhole : whole ++ pointed [] = whole := by simp [pointed]
  have hdigit : ∀ c ∈ whole, c.isDigit = true := by simpa using hwrites.isDigit
  rw [← String.toList_inj, htext, toList_signed]
  rw [hwhole] at hintegral ⊢
  split
  · rename_i hsign
    rw [if_pos hsign] at hintegral
    exact toList_intText_of_integral_neg hintegral hdigit hwrites.ne_nil (hwrites.head rfl)
  · rename_i hsign
    rw [if_neg hsign] at hintegral
    exact toList_intText_of_integral hintegral hdigit hwrites.ne_nil (hwrites.head rfl)

end Double

end TraversalSql
