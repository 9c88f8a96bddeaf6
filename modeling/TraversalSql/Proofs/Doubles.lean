import Mathlib.Algebra.Group.Nat.Defs
import Mathlib.Data.Int.Order.Basic
import Mathlib.Order.Compare
import TraversalSql.Number.Double

/-!
# Integers as doubles

A double has fifty-three bits of mantissa, so the integers up to `2 ^ 53` on either side of zero
keep their places among each other when each is replaced by the double nearest to it
(`Double.place_ofInt_lt`). Beyond that integers fall together: `2 ^ 53 + 1` has the double of
`2 ^ 53`.
-/

set_option autoImplicit false

namespace TraversalSql

namespace Double

/-! ## 1. Sign and magnitude -/

variable {m n : Nat}

theorem bits_ofMagnitude (negative : Bool) (h : m < 2 ^ 63) :
    (ofMagnitude negative m).bits.toNat = (if negative then 2 ^ 63 else 0) + m := by
  have hm : m.toUInt64.toNat = m := by
    rw [Nat.toUInt64_eq, UInt64.toNat_ofNat']
    omega
  unfold ofMagnitude
  cases negative with
  | false => simp [hm]
  | true =>
    rw [UInt64.toNat_or, hm]
    exact (Nat.two_pow_add_eq_or_of_lt h 1).symm

theorem negative_ofMagnitude (negative : Bool) (h : m < 2 ^ 63) :
    (ofMagnitude negative m).negative = negative := by
  unfold Double.negative
  simp only [ge_iff_le, UInt64.le_iff_toNat_le, bits_ofMagnitude negative h]
  cases negative with
  | false => simpa using h
  | true => simp

theorem magnitude_ofMagnitude (negative : Bool) (h : m < 2 ^ 63) :
    (ofMagnitude negative m).magnitude = m := by
  unfold magnitude
  rw [UInt64.toNat_and, bits_ofMagnitude negative h,
    show (0x7FFFFFFFFFFFFFFF : UInt64).toNat = 2 ^ 63 - 1 from rfl, Nat.and_two_pow_sub_one_eq_mod]
  cases negative with
  | false => simpa using h
  | true => simpa using h

theorem place_ofMagnitude (negative : Bool) (h : m < 2 ^ 63) :
    (ofMagnitude negative m).place = if negative then -(m : Int) - 1 else m := by
  rw [place, negative_ofMagnitude negative h, magnitude_ofMagnitude negative h]

/-! ## 2. Integers that are doubles -/

theorem nearestMagnitude_le (num den : Nat) : nearestMagnitude num den ≤ infiniteMagnitude := by
  unfold nearestMagnitude
  split
  · exact Nat.zero_le _
  · exact Nat.min_le_left _ _

theorem roundHalfEven_one (n : Nat) : roundHalfEven n 1 = n := by
  unfold roundHalfEven
  rw [Nat.mod_one, Nat.div_one]
  rfl

theorem inUnits_neg (num den k : Nat) : inUnits num den (-(k : Int)) = (num * 2 ^ k, den) := by
  simp [inUnits, Nat.shiftLeft_eq]

/-- A positive integer of up to fifty-three bits, moved up by `52 - n.log2` places, fills the
mantissa. -/
theorem mantissa_bounds (hpos : n ≠ 0) (hlt : n < 2 ^ 53) :
    n.log2 ≤ 52 ∧ 2 ^ 52 ≤ n * 2 ^ (52 - n.log2) ∧ n * 2 ^ (52 - n.log2) < 2 ^ 53 := by
  have hlog : n.log2 ≤ 52 := Nat.le_of_lt_succ ((Nat.log2_lt hpos).mpr hlt)
  refine ⟨hlog, ?_, ?_⟩
  · calc 2 ^ 52 = 2 ^ n.log2 * 2 ^ (52 - n.log2) := by rw [← Nat.pow_add, Nat.add_sub_cancel' hlog]
      _ ≤ n * 2 ^ (52 - n.log2) := Nat.mul_le_mul_right _ (Nat.log2_self_le hpos)
  · calc n * 2 ^ (52 - n.log2) < 2 ^ (n.log2 + 1) * 2 ^ (52 - n.log2) :=
          Nat.mul_lt_mul_of_pos_right Nat.lt_log2_self (Nat.two_pow_pos _)
      _ = 2 ^ 53 := by rw [← Nat.pow_add]; congr 1; omega

/-- Nothing is lost of an integer of up to fifty-three bits. -/
theorem nearestMagnitude_of_lt (hpos : n ≠ 0) (hlt : n < 2 ^ 53) :
    nearestMagnitude n 1 = (n.log2 + 1022) * 2 ^ 52 + n * 2 ^ (52 - n.log2) := by
  obtain ⟨hlog, hfull, hbelow⟩ := mantissa_bounds hpos hlt
  have hestimate : (n.log2 : Int) - Nat.log2 1 - 52 = -((52 - n.log2 : Nat) : Int) := by
    rw [show Nat.log2 1 = 0 from rfl]
    omega
  have hunit : max (-((52 - n.log2 : Nat) : Int)) (-1074) = -((52 - n.log2 : Nat) : Int) := by
    omega
  have hexponent : (-((52 - n.log2 : Nat) : Int) + 1074).toNat = n.log2 + 1022 := by
    omega
  have hmantissa : fullMantissa = 2 ^ 52 := rfl
  have hinfinite : infiniteMagnitude = 2047 * 2 ^ 52 := rfl
  unfold nearestMagnitude
  rw [if_neg hpos]
  simp only [hestimate, inUnits_neg, Nat.one_mul, hmantissa, if_neg (Nat.not_lt.mpr hfull), hunit,
    roundHalfEven_one, hexponent, hinfinite]
  exact Nat.min_eq_right (by omega)

/-- The doubles of the integers up to `2 ^ 53` grow with the integers. -/
theorem nearestMagnitude_lt (hmn : m < n) (hn : n ≤ 2 ^ 53) :
    nearestMagnitude m 1 < nearestMagnitude n 1 := by
  -- the last of them has one bit more and goes apart
  have hlast : nearestMagnitude (2 ^ 53) 1 = 1076 * 2 ^ 52 := by decide +kernel
  have hpos : n ≠ 0 := Nat.ne_zero_of_lt hmn
  by_cases hm : m = 0
  · subst hm
    rcases Nat.lt_or_eq_of_le hn with hlt | rfl
    · rw [nearestMagnitude_of_lt hpos hlt]
      exact Nat.lt_of_lt_of_le (Nat.mul_pos (by omega) (by decide)) (Nat.le_add_right _ _)
    · rw [hlast]
      decide
  · obtain ⟨hlogm, _, hbelow⟩ := mantissa_bounds hm (Nat.lt_of_lt_of_le hmn hn)
    rw [nearestMagnitude_of_lt hm (Nat.lt_of_lt_of_le hmn hn)]
    rcases Nat.lt_or_eq_of_le hn with hlt | rfl
    · obtain ⟨_, hfull, _⟩ := mantissa_bounds hpos hlt
      rw [nearestMagnitude_of_lt hpos hlt]
      have hlog : m.log2 ≤ n.log2 :=
        (Nat.le_log2 hpos).mpr (Nat.le_trans (Nat.log2_self_le hm) (Nat.le_of_lt hmn))
      rcases Nat.lt_or_eq_of_le hlog with hlog | hlog
      · omega
      · rw [hlog]
        exact Nat.add_lt_add_left (Nat.mul_lt_mul_of_pos_right hmn (Nat.two_pow_pos _)) _
    · rw [hlast]
      omega

/-- Integers up to `2 ^ 53` on either side of zero keep their places as doubles. -/
theorem place_ofInt_lt {i k : Int} (hik : i < k) (hi : i.natAbs ≤ 2 ^ 53) (hk : k.natAbs ≤ 2 ^ 53) :
    (ofInt i).place < (ofInt k).place := by
  have hfinite : ∀ n, nearestMagnitude n 1 < 2 ^ 63 :=
    fun n => Nat.lt_of_le_of_lt (nearestMagnitude_le n 1) (by decide)
  unfold ofInt nearest
  rw [place_ofMagnitude _ (hfinite _), place_ofMagnitude _ (hfinite _)]
  simp only [decide_eq_true_eq]
  by_cases hi0 : i < 0
  · by_cases hk0 : k < 0
    · have hlt := nearestMagnitude_lt (m := k.natAbs) (n := i.natAbs) (by omega) hi
      rw [if_pos hi0, if_pos hk0]
      omega
    · rw [if_pos hi0, if_neg hk0]
      omega
  · have hlt := nearestMagnitude_lt (m := i.natAbs) (n := k.natAbs) (by omega) hk
    rw [if_neg hi0, if_neg (by omega)]
    omega

example : ofInt (2 ^ 53 + 1) = ofInt (2 ^ 53) := by decide +kernel

/-- If one double stands for two integers, one of them is beyond `2 ^ 53`. -/
theorem exists_large_of_compareTotal {x : Double} {i k : Int} (hne : i ≠ k)
    (hi : x.compareTotal (ofInt i) = .eq) (hk : x.compareTotal (ofInt k) = .eq) :
    2 ^ 53 < i.natAbs ∨ 2 ^ 53 < k.natAbs := by
  have hplace : (ofInt i).place = (ofInt k).place :=
    (compare_eq_iff_eq.mp hi).symm.trans (compare_eq_iff_eq.mp hk)
  by_contra hsmall
  obtain ⟨hi, hk⟩ := not_or.mp hsmall
  rcases Int.lt_or_gt_of_ne hne with hlt | hgt
  · exact (place_ofInt_lt hlt (Nat.le_of_not_lt hi) (Nat.le_of_not_lt hk)).ne hplace
  · exact (place_ofInt_lt hgt (Nat.le_of_not_lt hk) (Nat.le_of_not_lt hi)).ne hplace.symm

end Double

end TraversalSql
