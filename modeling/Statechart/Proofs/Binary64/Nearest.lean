import Mathlib.Algebra.Order.Field.Power
import Mathlib.Algebra.Order.Floor.Semifield
import Mathlib.Data.Int.Log
import Mathlib.Data.Rat.Floor
import Mathlib.Tactic.FieldSimp
import Mathlib.Tactic.Linarith
import Mathlib.Tactic.NormNum
import Mathlib.Tactic.Positivity
import Mathlib.Tactic.Ring
import Statechart.Binary64

/-!
# Rounding to a number of the format

The rounding of `ofQuotient` is done on numerators and denominators. Said of the quotient itself
(`ofSize`) it is the textbook's: the exponent is that of the quotient's binade, or the least one,
and the mantissa the nearest whole number of such units. So numerals of one size round alike,
however they are written.

* `ofQuotient_eq`: what a quotient rounds to depends on its size only.
* `ofSize_eq_of_near`: every size near enough to a number rounds to it.
-/
namespace Statechart.Binary64

/-- A number of the format: the mantissa has 53 bits, and all of them unless the exponent is the
least. -/
structure Canonical (x : Binary64) : Prop where
  mantissa_lt : x.mantissa < 2 ^ 53
  minExponent_le : minExponent ≤ x.exponent
  le_maxExponent : x.exponent ≤ maxExponent
  normal : 2 ^ 52 ≤ x.mantissa ∨ x.exponent = minExponent

instance (x : Binary64) : Decidable x.Canonical :=
  decidable_of_iff (x.mantissa < 2 ^ 53 ∧ minExponent ≤ x.exponent ∧ x.exponent ≤ maxExponent ∧
      (2 ^ 52 ≤ x.mantissa ∨ x.exponent = minExponent))
    ⟨fun h => ⟨h.1, h.2.1, h.2.2.1, h.2.2.2⟩, fun h => ⟨h.1, h.2, h.3, h.4⟩⟩

/-- A number without its sign. -/
def size (x : Binary64) : ℚ := x.mantissa * 2 ^ x.exponent

/-! ## Whole numbers -/

/-- The nearest natural number; of two the even one. -/
def nearest (r : ℚ) : ℕ :=
  let q := ⌊r⌋₊
  if r - q < 1 / 2 then q else if 1 / 2 < r - q then q + 1 else q + q % 2

theorem div_sub_whole (num : ℕ) {den : ℕ} (hden : 0 < den) :
    (num / den : ℚ) - (num / den : ℕ) = (num % den : ℕ) / den := by
  have hd : (den : ℚ) ≠ 0 := by exact_mod_cast hden.ne'
  rw [eq_div_iff hd, sub_mul, div_mul_cancel₀ _ hd, sub_eq_iff_eq_add]
  exact_mod_cast (Nat.mod_add_div' num den).symm

theorem roundQuotient_eq (num : ℕ) {den : ℕ} (hden : 0 < den) :
    roundQuotient num den = nearest (num / den) := by
  have hd : (0 : ℚ) < den := by exact_mod_cast hden
  have hlow : 2 * (num % den) < den ↔ ((num % den : ℕ) : ℚ) / den < 1 / 2 := by
    rw [div_lt_div_iff₀ hd two_pos, one_mul, mul_comm]
    exact_mod_cast Iff.rfl
  have hhigh : den < 2 * (num % den) ↔ 1 / 2 < ((num % den : ℕ) : ℚ) / den := by
    rw [div_lt_div_iff₀ two_pos hd, one_mul, mul_comm]
    exact_mod_cast Iff.rfl
  simp only [roundQuotient, nearest, Nat.floor_div_eq_div, div_sub_whole num hden, hlow, hhigh]

/-- A natural number is the nearest one to what is less than half away from it. -/
theorem nearest_eq {r : ℚ} {n : ℕ} (h : |r - n| < 1 / 2) (hr : 0 ≤ r) : nearest r = n := by
  obtain ⟨hlow, hhigh⟩ := abs_lt.mp h
  unfold nearest
  rcases le_or_gt (n : ℚ) r with hle | hlt
  · have hfloor : ⌊r⌋₊ = n := (Nat.floor_eq_iff hr).mpr ⟨hle, by linarith⟩
    rw [hfloor, if_pos (by linarith)]
  · obtain ⟨k, rfl⟩ : ∃ k, n = k + 1 := by
      refine Nat.exists_eq_succ_of_ne_zero fun h0 => ?_
      rw [h0, Nat.cast_zero] at hlt
      linarith
    push_cast at hlow hhigh hlt
    have hfloor : ⌊r⌋₊ = k := (Nat.floor_eq_iff hr).mpr ⟨by linarith, hlt⟩
    rw [hfloor, if_neg (by linarith), if_pos (by linarith)]

/-! ## Numbers of the format -/

/-- So many units, of which there may be one too many for the exponent. -/
def carry (negative : Bool) (m : ℕ) (e : ℤ) : Option Binary64 :=
  let (m, e) := if m = 2 ^ 53 then (2 ^ 52, e + 1) else (m, e)
  if maxExponent < e then none else some ⟨negative, m, e⟩

theorem carry_of_lt {negative : Bool} {m : ℕ} {e : ℤ} (hm : m < 2 ^ 53) (he : e ≤ maxExponent) :
    carry negative m e = some ⟨negative, m, e⟩ := by
  simp only [carry, if_neg hm.ne, if_neg he.not_gt]

theorem carry_full {negative : Bool} {e : ℤ} (he : e ≤ maxExponent) :
    carry negative (2 ^ 53) (e - 1) = some ⟨negative, 2 ^ 52, e⟩ := by
  simp only [carry, if_true, sub_add_cancel, if_neg he.not_gt]

/-- The number nearest to a size; none if it is too large for the format. -/
def ofSize (negative : Bool) (r : ℚ) : Option Binary64 :=
  let e := max minExponent (Int.log 2 r - 52)
  carry negative (nearest (r / 2 ^ e)) e

theorem log_eq_of_bounds {r : ℚ} {k : ℤ} (hlow : 2 ^ k ≤ r) (hhigh : r < 2 ^ (k + 1)) :
    Int.log 2 r = k := by
  have hr : 0 < r := lt_of_lt_of_le (by positivity) hlow
  have hge := (Int.zpow_le_iff_le_log (b := 2) one_lt_two hr).mp (by exact_mod_cast hlow)
  have hlt := (Int.lt_zpow_iff_log_lt (b := 2) one_lt_two hr).mp (by exact_mod_cast hhigh)
  omega

/-- A power with a whole exponent as a quotient of powers with natural ones. -/
theorem zpow_eq_div {b : ℚ} (hb : b ≠ 0) (e : ℤ) : b ^ e = b ^ e.toNat / b ^ (-e).toNat := by
  rw [eq_div_iff (pow_ne_zero _ hb), ← zpow_natCast, ← zpow_natCast, ← zpow_add₀ hb]
  congr 1
  omega

section Quotient

variable {num den : ℕ} (hnum : 0 < num) (hden : 0 < den)
include hnum hden

theorem log_quotient :
    Int.log 2 (num / den : ℚ) =
      (Nat.log2 num : ℤ) - Nat.log2 den -
        if (num / den : ℚ) < 2 ^ ((Nat.log2 num : ℤ) - Nat.log2 den) then 1 else 0 := by
  have hd : (0 : ℚ) < den := by exact_mod_cast hden
  have hnl : (2 : ℚ) ^ (Nat.log2 num : ℤ) ≤ num := by
    exact_mod_cast Nat.log2_self_le hnum.ne'
  have hnu : (num : ℚ) < 2 ^ ((Nat.log2 num : ℤ) + 1) := by
    exact_mod_cast Nat.lt_log2_self (n := num)
  have hdl : (2 : ℚ) ^ (Nat.log2 den : ℤ) ≤ den := by
    exact_mod_cast Nat.log2_self_le hden.ne'
  have hdu : (den : ℚ) < 2 ^ ((Nat.log2 den : ℤ) + 1) := by
    exact_mod_cast Nat.lt_log2_self (n := den)
  generalize (Nat.log2 num : ℤ) = a at *
  generalize (Nat.log2 den : ℤ) = b at *
  have hlow : (2 : ℚ) ^ (a - b - 1) ≤ num / den := by
    rw [le_div_iff₀ hd]
    calc (2 : ℚ) ^ (a - b - 1) * den ≤ 2 ^ (a - b - 1) * 2 ^ (b + 1) := by gcongr
      _ = 2 ^ a := by rw [← zpow_add₀ two_ne_zero]; congr 1; omega
      _ ≤ num := hnl
  have hhigh : (num / den : ℚ) < 2 ^ (a - b + 1) := by
    rw [div_lt_iff₀ hd]
    calc (num : ℚ) < 2 ^ (a + 1) := hnu
      _ = 2 ^ (a - b + 1) * 2 ^ b := by rw [← zpow_add₀ two_ne_zero]; congr 1; omega
      _ ≤ 2 ^ (a - b + 1) * den := by gcongr
  split
  · rename_i hlt
    exact log_eq_of_bounds hlow (by rwa [sub_add_cancel])
  · rename_i hge
    rw [sub_zero]
    exact log_eq_of_bounds (not_lt.mp hge) hhigh

/-- What a quotient rounds to depends on its size only. -/
theorem ofQuotient_eq (negative : Bool) : ofQuotient negative num den =
    ofSize negative (num / den) := by
  have hd : (0 : ℚ) < den := by exact_mod_cast hden
  have hbelow (a b : ℤ) :
      (if a < b then num * 2 ^ (b - a).toNat < den else num < den * 2 ^ (a - b).toNat) ↔
        (num / den : ℚ) < 2 ^ (a - b) := by
    rw [div_lt_iff₀ hd, zpow_eq_div two_ne_zero, div_mul_eq_mul_div, lt_div_iff₀ (by positivity),
      neg_sub]
    split
    · rw [show (a - b).toNat = 0 by omega, pow_zero, one_mul]
      exact_mod_cast Iff.rfl
    · rw [show (b - a).toNat = 0 by omega, pow_zero, mul_one, mul_comm (2 ^ _ : ℚ)]
      exact_mod_cast Iff.rfl
  have hunits (e : ℤ) :
      (if 0 ≤ e then roundQuotient num (den * 2 ^ e.toNat)
        else roundQuotient (num * 2 ^ (-e).toNat) den) = nearest (num / den / 2 ^ e) := by
    rw [zpow_eq_div two_ne_zero]
    split
    · rw [roundQuotient_eq _ (by positivity), show (-e).toNat = 0 by omega, pow_zero, div_one,
        div_div]
      push_cast
      rfl
    · rw [roundQuotient_eq _ hden, show e.toNat = 0 by omega, pow_zero, div_div_eq_mul_div, div_one,
        div_mul_eq_mul_div]
      push_cast
      rfl
  have hexponent (a b : ℤ) (p : Prop) [Decidable p] :
      (if p then a - b - 53 else a - b - 52) = a - b - (if p then 1 else 0) - 52 := by
    split <;> omega
  simp only [ofQuotient, Nat.pow_eq, hunits, hbelow, hexponent, ← log_quotient hnum hden]
  rfl

end Quotient

/-! ## Sizes near a number -/

section Near

variable {negative : Bool} {m : ℕ} {e : ℤ} {y : ℚ}

theorem two_zpow_add (e k : ℤ) : (2 : ℚ) ^ (e + k) = 2 ^ k * 2 ^ e := by
  rw [zpow_add₀ two_ne_zero, mul_comm]

/-- A size in the binade of a number, less than half a unit away from it. -/
theorem ofSize_of_binade (hm : m < 2 ^ 53) (hmin : minExponent ≤ e) (hmax : e ≤ maxExponent)
    (hbinade : 2 ^ 52 ≤ y ∨ e = minExponent) (hpos : 0 < y) (hy : |y - m| < 1 / 2) :
    ofSize negative (y * 2 ^ e) = some ⟨negative, m, e⟩ := by
  have hu : (0 : ℚ) < 2 ^ e := by positivity
  have hm53 : (m : ℚ) + 1 ≤ 2 ^ 53 := by exact_mod_cast hm
  have hupper : Int.log 2 (y * 2 ^ e) < e + 53 := by
    refine (Int.lt_zpow_iff_log_lt one_lt_two (by positivity)).mp ?_
    rw [Nat.cast_ofNat, two_zpow_add]
    have hlt : y < 2 ^ 53 := by linarith [(abs_lt.mp hy).2]
    exact mul_lt_mul_of_pos_right (by exact_mod_cast hlt) hu
  have hexponent : max minExponent (Int.log 2 (y * 2 ^ e) - 52) = e := by
    rcases hbinade with hge | hleast
    · have hlower : e + 52 ≤ Int.log 2 (y * 2 ^ e) := by
        refine (Int.zpow_le_iff_le_log one_lt_two (by positivity)).mp ?_
        rw [Nat.cast_ofNat, two_zpow_add]
        exact mul_le_mul_of_nonneg_right (by exact_mod_cast hge) hu.le
      omega
    · omega
  simp only [ofSize]
  rw [hexponent, mul_div_cancel_right₀ _ hu.ne', nearest_eq hy hpos.le, carry_of_lt hm hmax]

/-- A size just below a power of two, where the units are half as large. -/
theorem ofSize_below_power (hmin : minExponent < e) (hmax : e ≤ maxExponent)
    (hlt : y < 2 ^ 52) (hy : |y - 2 ^ 52| < 1 / 4) :
    ofSize negative (y * 2 ^ e) = some ⟨negative, 2 ^ 52, e⟩ := by
  have hu : (0 : ℚ) < 2 ^ e := by positivity
  obtain ⟨hlow, hhigh⟩ := abs_lt.mp hy
  have hlog : Int.log 2 (y * 2 ^ e) = e + 51 := by
    refine log_eq_of_bounds ?_ ?_
    · rw [two_zpow_add]
      exact mul_le_mul_of_nonneg_right (by norm_num; linarith) hu.le
    · rw [add_assoc, two_zpow_add]
      exact mul_lt_mul_of_pos_right (by norm_num; linarith) hu
  have hexponent : max minExponent (Int.log 2 (y * 2 ^ e) - 52) = e - 1 := by omega
  have hdouble : y * 2 ^ e / 2 ^ (e - 1) = 2 * y := by
    rw [div_eq_iff (by positivity), zpow_sub_one₀ two_ne_zero]
    ring
  have hnear : |2 * y - (2 ^ 53 : ℕ)| < 1 / 2 := by
    rw [abs_lt]
    push_cast
    constructor <;> linarith
  simp only [ofSize]
  rw [hexponent, hdouble, nearest_eq hnear (by linarith), carry_full (by omega)]

/-- A size near enough to a number rounds to it: the next number of the format is no nearer
than a part of the size in `2 ^ 53`. -/
theorem ofSize_eq_of_near {x : Binary64} (hx : x.Canonical) (h0 : x.mantissa ≠ 0) {r : ℚ}
    (h : |r - x.size| < x.size / 2 ^ 54) : ofSize x.negative r = some x := by
  obtain ⟨negative, m, e⟩ := x
  obtain ⟨hm, hmin, hmax, hnormal⟩ := hx
  dsimp only at hm hmin hmax hnormal h0
  simp only [size] at h
  have hu : (0 : ℚ) < 2 ^ e := by positivity
  have hm1 : (1 : ℚ) ≤ m := by exact_mod_cast Nat.pos_of_ne_zero h0
  have hm53 : (m : ℚ) + 1 ≤ 2 ^ 53 := by exact_mod_cast hm
  -- everything in units of the last place
  obtain ⟨y, rfl⟩ : ∃ y, r = y * 2 ^ e := ⟨r / 2 ^ e, (div_mul_cancel₀ _ hu.ne').symm⟩
  have hy : |y - m| < m / 2 ^ 54 := by
    rw [← sub_mul, abs_mul, abs_of_pos hu, mul_div_right_comm] at h
    exact lt_of_mul_lt_mul_right h hu.le
  have hhalf : |y - m| < 1 / 2 := by linarith
  obtain ⟨hlow, hhigh⟩ := abs_lt.mp hhalf
  by_cases hbinade : 2 ^ 52 ≤ y ∨ e = minExponent
  · exact ofSize_of_binade hm hmin hmax hbinade (by linarith) hhalf
  · obtain ⟨hlt, hleast⟩ := not_or.mp hbinade
    rw [not_le] at hlt
    obtain rfl : m = 2 ^ 52 := by
      have hlt53 : (m : ℚ) < 2 ^ 52 + 1 := by linarith
      have : m < 2 ^ 52 + 1 := by exact_mod_cast hlt53
      omega
    push_cast at hy
    exact ofSize_below_power (by omega) hmax hlt (by linarith)

end Near

end Statechart.Binary64
