import Statechart.Proofs.Binary64.Nearest
import Statechart.Proofs.Json.Readback

/-!
# The text of a number rounds back to it

Digits are searched for on grids of one to seventeen digits and taken only if they round back to
the number. On the last of these grids the nearest point always does (`onGrid_seventeen`), so
the search finds some. Neither the zeros that are dropped then nor the place of the decimal point
changes the size that is written.

* `shortest_rounds`: what the shortest digits round to.
* `Numeral.exists_layout`: what a layout of digits says.
* `ofText?_text`: the text of a number rounds back to it.
* `text_inj`: the text of a number determines it.
-/
namespace Statechart

namespace Digits

theorem value_eq (ds : List Char) : value ds = Nat.ofDigitChars 10 ds 0 := by
  simp only [value, Nat.ofDigitChars, Nat.mul_comm]

theorem value_append_zeros (ds : List Char) (n : ℕ) :
    value (ds ++ List.replicate n '0') = value ds * 10 ^ n := by
  rw [value_eq, value_eq, Nat.ofDigitChars_append, Nat.ofDigitChars_replicate_zero, mul_comm]

theorem value_zeros_append (n : ℕ) (ds : List Char) :
    value (List.replicate n '0' ++ ds) = value ds := by
  rw [value_eq, value_eq, Nat.ofDigitChars_append, Nat.ofDigitChars_replicate_zero, mul_zero]

end Digits

namespace Binary64

/-! ## Digits that round back -/

theorem ofDecimal_eq (negative : Bool) {digits : ℕ} {scale : ℤ} (h0 : digits ≠ 0)
    (hhigh : scale ≤ 400) (hlow : -400 ≤ scale + Nat.log2 digits) :
    ofDecimal negative digits scale = ofSize negative (digits * 10 ^ scale) := by
  rw [ofDecimal, if_neg h0, if_neg (by omega), if_neg (by omega), zpow_eq_div (by norm_num),
    Nat.pow_eq, Nat.pow_eq]
  split
  · rw [ofQuotient_eq (by positivity) one_pos, show (-scale).toNat = 0 by omega]
    push_cast
    rw [pow_zero, div_one, div_one]
  · rw [ofQuotient_eq (Nat.pos_of_ne_zero h0) (by positivity), show scale.toNat = 0 by omega]
    push_cast
    rw [pow_zero, mul_one_div]

variable {x : Binary64}

theorem roundsTo_spec {digits : ℕ} {scale : ℤ} (hx : x.mantissa ≠ 0)
    (h : x.roundsTo digits scale = true) :
    digits ≠ 0 ∧ ofSize x.negative (digits * 10 ^ scale) = some x := by
  rw [roundsTo, beq_iff_eq] at h
  have hzero : some (zero x.negative) ≠ some x := fun heq =>
    hx (by rw [← Option.some.inj heq]; rfl)
  have h0 : digits ≠ 0 := fun h0 => hzero (by rw [← h, ofDecimal, if_pos h0])
  refine ⟨h0, ?_⟩
  rw [← ofDecimal_eq _ h0 ?_ ?_, h]
  · by_contra hlarge
    rw [ofDecimal, if_neg h0, if_pos (by omega)] at h
    cases h
  · by_contra hsmall
    by_cases hlarge : 400 < scale
    · rw [ofDecimal, if_neg h0, if_pos hlarge] at h
      cases h
    · rw [ofDecimal, if_neg h0, if_neg hlarge, if_pos (by omega)] at h
      exact hzero h

/-! ## The points of a grid -/

/-- The two natural numbers around a quotient, the nearer one first. -/
def around (num den : ℕ) : ℕ × ℕ :=
  let low := num / den
  let r := num % den
  if 2 * r < den ∨ (2 * r = den ∧ low % 2 = 0) then (low, low + 1) else (low + 1, low)

theorem abs_around_sub_le (num : ℕ) {den : ℕ} (hden : 0 < den) :
    |((around num den).1 : ℚ) - num / den| ≤ 1 / 2 := by
  have hd : (0 : ℚ) < den := by exact_mod_cast hden
  have hrest := div_sub_whole num hden
  have hpos : (0 : ℚ) ≤ (num % den : ℕ) / den := by positivity
  have hlt : ((num % den : ℕ) / den : ℚ) < 1 := by
    rw [div_lt_one hd]
    exact_mod_cast Nat.mod_lt num hden
  unfold around
  dsimp only
  split
  · have hhalf : ((num % den : ℕ) / den : ℚ) ≤ 1 / 2 := by
      rw [div_le_div_iff₀ hd two_pos, one_mul]
      exact_mod_cast (show num % den * 2 ≤ den by omega)
    rw [abs_le]
    constructor <;> linarith
  · have hhalf : (1 / 2 : ℚ) ≤ (num % den : ℕ) / den := by
      rw [div_le_div_iff₀ two_pos hd, one_mul]
      exact_mod_cast (show den ≤ num % den * 2 by omega)
    rw [abs_le]
    push_cast
    constructor <;> linarith

/-- The numerator and the denominator of a number in units of a power of ten. -/
def scaled (x : Binary64) (scale : ℤ) : ℕ × ℕ :=
  let (num, den) := x.fraction
  if 0 ≤ scale then (num, den * 10 ^ scale.toNat) else (num * 10 ^ (-scale).toNat, den)

theorem onGrid_eq (x : Binary64) (n : ℕ) :
    x.onGrid n =
      let scale := places x.fraction.1 x.fraction.2 - n
      let points := around (x.scaled scale).1 (x.scaled scale).2
      if x.roundsTo points.1 scale then some (points.1, scale)
      else if x.roundsTo points.2 scale then some (points.2, scale)
      else none := rfl

theorem roundsTo_of_onGrid {n digits : ℕ} {scale : ℤ} (h : x.onGrid n = some (digits, scale)) :
    x.roundsTo digits scale = true := by
  simp only [onGrid_eq] at h
  split at h
  · rename_i hr
    cases h
    exact hr
  · split at h
    · rename_i hr
      cases h
      exact hr
    · cases h

/-! ## Seventeen digits -/

theorem fraction_den_pos (x : Binary64) : 0 < x.fraction.2 := by
  unfold fraction
  split
  · exact one_pos
  · exact Nat.pow_pos two_pos

theorem fraction_den_le (x : Binary64) {k : ℕ} (hk : (-x.exponent).toNat ≤ 3 * k) :
    x.fraction.2 ≤ 10 ^ k := by
  unfold fraction
  split
  · exact Nat.one_le_pow _ _ (by norm_num)
  · calc 2 ^ (-x.exponent).toNat ≤ 2 ^ (3 * k) := Nat.pow_le_pow_right two_pos hk
      _ = (2 ^ 3) ^ k := pow_mul 2 3 k
      _ ≤ 10 ^ k := Nat.pow_le_pow_left (by norm_num) k

theorem fraction_num_pos (h0 : x.mantissa ≠ 0) : 0 < x.fraction.1 := by
  have := Nat.pos_of_ne_zero h0
  unfold fraction
  split
  · exact Nat.mul_pos this (Nat.pow_pos two_pos)
  · exact this

theorem fraction_eq_size (x : Binary64) : (x.fraction.1 / x.fraction.2 : ℚ) = x.size := by
  rw [size, zpow_eq_div two_ne_zero]
  unfold fraction
  split
  · rw [show (-x.exponent).toNat = 0 by omega]
    simp [Nat.pow_eq]
  · rw [show x.exponent.toNat = 0 by omega]
    simp [Nat.pow_eq, div_eq_mul_inv]

theorem scaled_den_pos (x : Binary64) (scale : ℤ) : 0 < (x.scaled scale).2 := by
  have := x.fraction_den_pos
  unfold scaled
  dsimp only
  split
  · positivity
  · exact this

theorem scaled_eq_size (x : Binary64) (scale : ℤ) :
    ((x.scaled scale).1 / (x.scaled scale).2 : ℚ) = x.size / 10 ^ scale := by
  rw [← fraction_eq_size, zpow_eq_div (by norm_num)]
  unfold scaled
  dsimp only
  split
  · rw [show (-scale).toNat = 0 by omega]
    push_cast
    rw [pow_zero, div_one, div_div]
  · rw [show scale.toNat = 0 by omega]
    push_cast
    rw [pow_zero, div_div_eq_mul_div, div_one, div_mul_eq_mul_div]

/-- The leading digit is no farther behind the point than `leading` is told to look. -/
theorem leading_spec {num den : ℕ} : ∀ (fuel j : ℕ), den ≤ num * 10 ^ (j + fuel) →
    den ≤ num * 10 ^ places.leading num den fuel j ∧
      places.leading num den fuel j ≤ j + fuel
  | 0, j, h => ⟨h, le_rfl⟩
  | fuel + 1, j, h => by
    rw [places.leading, Nat.pow_eq]
    split
    · rename_i hj
      exact ⟨hj, by omega⟩
    · have hnext : den ≤ num * 10 ^ (j + 1 + fuel) := by rwa [add_assoc, add_comm 1]
      obtain ⟨h1, h2⟩ := leading_spec fuel (j + 1) hnext
      exact ⟨h1, by omega⟩

/-- A quotient reaches the power of ten before its places. -/
theorem places_spec {num den : ℕ} (hden : 0 < den) (hfuel : den ≤ num * 10 ^ (1 + 400)) :
    (10 : ℚ) ^ (places num den - 1) ≤ num / den ∧ -400 ≤ places num den := by
  have hd : (0 : ℚ) < den := by exact_mod_cast hden
  unfold places
  split
  · rename_i hle
    have hcount : 0 < digitCount (num / den) := List.length_pos_iff.mpr Nat.toDigits_ne_nil
    have hpow : 10 ^ (digitCount (num / den) - 1) ≤ num / den := by
      rcases Nat.eq_zero_or_pos (digitCount (num / den) - 1) with h0 | hpos
      · rw [h0, pow_zero]
        exact Nat.div_pos hle hden
      · by_contra hlt
        have := (Nat.length_toDigits_le_iff (by decide) hpos).mpr (not_le.mp hlt)
        unfold digitCount at this hcount
        omega
    have hrest : (0 : ℚ) ≤ (num % den : ℕ) / den := by positivity
    refine ⟨?_, by omega⟩
    calc (10 : ℚ) ^ ((digitCount (num / den) : ℤ) - 1)
        = (10 ^ (digitCount (num / den) - 1) : ℕ) := by
          rw [← Nat.cast_pred hcount, zpow_natCast]
          push_cast
          rfl
      _ ≤ (num / den : ℕ) := by exact_mod_cast hpow
      _ ≤ num / den := by linarith [div_sub_whole num hden, hrest]
  · obtain ⟨h1, h2⟩ := leading_spec 400 1 hfuel
    refine ⟨?_, by omega⟩
    rw [sub_sub_cancel_left, zpow_neg, zpow_natCast, le_div_iff₀ hd,
      inv_mul_le_iff₀ (by positivity), mul_comm]
    exact_mod_cast h1

/-- A number of the format is neither too small nor too large for seventeen digits. -/
theorem places_fraction (hx : x.Canonical) (h0 : x.mantissa ≠ 0) :
    (10 : ℚ) ^ (places x.fraction.1 x.fraction.2 - 1) ≤ x.size ∧
      -400 ≤ places x.fraction.1 x.fraction.2 ∧ places x.fraction.1 x.fraction.2 ≤ 400 := by
  have hfuel : x.fraction.2 ≤ x.fraction.1 * 10 ^ (1 + 400) := by
    have hden : x.fraction.2 ≤ 10 ^ (1 + 400) := by
      have hmin := hx.minExponent_le
      unfold minExponent at hmin
      exact x.fraction_den_le (by omega)
    exact hden.trans (Nat.le_mul_of_pos_left _ (fraction_num_pos h0))
  obtain ⟨hlow, hleast⟩ := places_spec x.fraction_den_pos hfuel
  rw [fraction_eq_size] at hlow
  refine ⟨hlow, hleast, ?_⟩
  have hsize : x.size < 10 ^ (400 : ℤ) := by
    have hmax := hx.le_maxExponent
    have hm : (x.mantissa : ℚ) < 2 ^ (53 : ℤ) := by exact_mod_cast hx.mantissa_lt
    calc x.size ≤ x.mantissa * 2 ^ (971 : ℤ) :=
          mul_le_mul_of_nonneg_left (zpow_le_zpow_right₀ one_le_two hmax) (Nat.cast_nonneg _)
      _ < 2 ^ (53 : ℤ) * 2 ^ (971 : ℤ) := by gcongr
      _ ≤ 2 ^ (3 * 400 : ℤ) := by
          rw [← zpow_add₀ two_ne_zero]
          exact zpow_le_zpow_right₀ one_le_two (by norm_num)
      _ ≤ 10 ^ (400 : ℤ) := by
          rw [zpow_mul]
          exact zpow_le_zpow_left₀ (by norm_num) (by norm_num) (by norm_num)
  have := (zpow_lt_zpow_iff_right₀ (by norm_num)).mp (hlow.trans_lt hsize)
  omega

/-- Seventeen digits suffice: the nearest point of that grid rounds back to the number. -/
theorem onGrid_seventeen (hx : x.Canonical) (h0 : x.mantissa ≠ 0) :
    (x.onGrid 17).isSome = true := by
  obtain ⟨hlow, hleast, hmost⟩ := places_fraction hx h0
  rw [onGrid_eq]
  dsimp only
  push_cast
  generalize places x.fraction.1 x.fraction.2 = k at *
  have hnear := abs_around_sub_le (x.scaled (k - 17)).1 (x.scaled_den_pos (k - 17))
  rw [scaled_eq_size] at hnear
  generalize (around (x.scaled (k - 17)).1 (x.scaled (k - 17)).2).1 = near at *
  have hunit : (0 : ℚ) < 10 ^ (k - 17) := by positivity
  have hmany : (10 : ℚ) ^ 16 ≤ x.size / 10 ^ (k - 17) := by
    rw [le_div_iff₀ hunit]
    calc (10 : ℚ) ^ 16 * 10 ^ (k - 17) = 10 ^ (k - 1) := by
          rw [← zpow_natCast, ← zpow_add₀ (by norm_num)]
          congr 1
          push_cast
          ring
      _ ≤ x.size := hlow
  have hdistance : |near * 10 ^ (k - 17) - x.size| < x.size / 2 ^ 54 := by
    obtain ⟨y, hy⟩ : ∃ y, x.size = y * 10 ^ (k - 17) :=
      ⟨x.size / 10 ^ (k - 17), (div_mul_cancel₀ _ hunit.ne').symm⟩
    rw [hy, mul_div_cancel_right₀ _ hunit.ne'] at hnear hmany
    rw [hy, ← sub_mul, abs_mul, abs_of_pos hunit, mul_div_right_comm]
    exact mul_lt_mul_of_pos_right (by linarith) hunit
  have hdigits : 2 ^ 17 ≤ near := by
    have : (2 ^ 17 : ℚ) ≤ near := by linarith [(abs_le.mp hnear).1]
    exact_mod_cast this
  have hlog : 17 ≤ Nat.log2 near := (Nat.le_log2 (by omega)).mpr hdigits
  have hround : x.roundsTo near (k - 17) = true := by
    rw [roundsTo, ofDecimal_eq _ (by omega) (by omega) (by omega),
      ofSize_eq_of_near hx h0 (by exact_mod_cast hdistance), beq_iff_eq]
  rw [if_pos hround]
  rfl

/-- Dropping zeros at the end changes neither the size of a numeral nor whether it is zero. -/
theorem trim_spec : ∀ (fuel digits : ℕ) (scale : ℤ),
    ((trim fuel digits scale).1 : ℚ) * 10 ^ (trim fuel digits scale).2 = digits * 10 ^ scale ∧
      (digits ≠ 0 → (trim fuel digits scale).1 ≠ 0)
  | 0, _, _ => ⟨rfl, id⟩
  | fuel + 1, digits, scale => by
    rw [trim]
    split
    · rename_i h
      obtain ⟨hsize, hzero⟩ := trim_spec fuel (digits / 10) (scale + 1)
      refine ⟨?_, fun _ => hzero (by omega)⟩
      have hdigits : (digits : ℚ) = (digits / 10 : ℕ) * 10 := by
        exact_mod_cast (Nat.div_mul_cancel (Nat.dvd_of_mod_eq_zero h.1)).symm
      rw [hsize, hdigits, zpow_add_one₀ (by norm_num)]
      ring
    · exact ⟨rfl, id⟩

/-- The shortest digits round back to the number. -/
theorem shortest_rounds (hx : x.Canonical) (h0 : x.mantissa ≠ 0) :
    x.shortest.1 ≠ 0 ∧ ofSize x.negative (x.shortest.1 * 10 ^ x.shortest.2) = some x := by
  unfold shortest
  cases hfound : (List.range 17).findSome? (fun n => x.onGrid (n + 1)) with
  | none =>
    have hlast := List.findSome?_eq_none_iff.mp hfound 16 (by decide)
    have hsome := onGrid_seventeen hx h0
    rw [hlast] at hsome
    cases hsome
  | some found =>
    obtain ⟨digits, scale⟩ := found
    obtain ⟨n, -, hn⟩ := List.exists_of_findSome?_eq_some hfound
    obtain ⟨hne, hround⟩ := roundsTo_spec h0 (roundsTo_of_onGrid hn)
    obtain ⟨hsize, hkept⟩ := trim_spec 20 digits scale
    exact ⟨hkept hne, by rw [hsize, hround]⟩

/-! ## Numerals -/

/-- A numeral without a sign: digits, with a point and further digits behind it, with a power of
ten, or with both. -/
structure Numeral where
  whole : List Char
  fraction : Option (List Char)
  power : Option ℤ
  whole_ne_nil : whole ≠ []
  whole_digits : ∀ c ∈ whole, c.isDigit = true
  fraction_digits : ∀ c ∈ fraction.getD [], c.isDigit = true
  marked : fraction ≠ none ∨ power ≠ none

/-- The characters of numerals and their signs. -/
def isNumeric (c : Char) : Bool := c.isDigit || c == '.' || c == 'e' || c == '-' || c == '+'

theorem isNumeric_of_isDigit {c : Char} (h : c.isDigit = true) : isNumeric c = true := by
  simp [isNumeric, h]

/-- The digits behind the point. -/
def fractionText : Option (List Char) → List Char
  | none => []
  | some ds => '.' :: ds

def powerText : Option ℤ → List Char
  | none => []
  | some e => 'e' :: (if e < 0 then '-' else '+') :: Nat.toDigits 10 e.natAbs

/-- The power of ten that is written behind an `e`. -/
def powerOf : List Char → ℤ
  | '-' :: ds => -Digits.value ds
  | _ :: ds => Digits.value ds
  | [] => 0

def readSize (cs : List Char) : ℚ :=
  let (front, power) := cs.span (· != 'e')
  let (whole, fraction) := front.span (· != '.')
  Digits.value (whole ++ fraction.tail) * 10 ^ (powerOf power.tail - fraction.tail.length : ℤ)

theorem powerOf_powerText (power : Option ℤ) : powerOf (powerText power).tail = power.getD 0 := by
  cases power with
  | none => rfl
  | some e =>
    rw [powerText, List.tail_cons, Option.getD_some]
    split
    · rw [powerOf, Digits.value_toDigits]
      omega
    · rw [powerOf, Digits.value_toDigits]
      · omega
      · decide

theorem span_ne {c : Char} {a b : List Char} (ha : c ∉ a) (hb : b = [] ∨ ∃ rest, b = c :: rest) :
    (a ++ b).span (· != c) = (a, b) := by
  have hall : ∀ d ∈ a, (d != c) = true := fun d hd => bne_iff_ne.mpr fun h => ha (h ▸ hd)
  rw [List.span_eq_takeWhile_dropWhile, List.takeWhile_append_of_pos hall,
    List.dropWhile_append_of_pos hall]
  rcases hb with rfl | ⟨rest, rfl⟩ <;> simp

namespace Numeral

variable (n : Numeral)

/-- The numeral as it is written. -/
def text : List Char := n.whole ++ fractionText n.fraction ++ powerText n.power

def size : ℚ :=
  Digits.value (n.whole ++ n.fraction.getD []) *
    10 ^ (n.power.getD 0 - (n.fraction.getD []).length : ℤ)

theorem mem_fractionText {c : Char} (hc : c ∈ fractionText n.fraction) :
    c = '.' ∨ c.isDigit = true := by
  have hdigits := n.fraction_digits
  cases hf : n.fraction with
  | none => rw [hf] at hc; cases hc
  | some ds =>
    rw [hf] at hc hdigits
    exact (List.mem_cons.mp hc).imp_right (hdigits c)

/-- The text of a numeral is read as its size. -/
theorem readSize_text : readSize n.text = n.size := by
  have hwhole (c : Char) (hc : c.isDigit = false) : c ∉ n.whole := fun h => by
    rw [n.whole_digits c h] at hc
    cases hc
  have he : 'e' ∉ n.whole ++ fractionText n.fraction := by
    rw [List.mem_append, not_or]
    exact ⟨hwhole _ rfl, fun h => by rcases n.mem_fractionText h with h | h <;> cases h⟩
  have hpower : powerText n.power = [] ∨ ∃ rest, powerText n.power = 'e' :: rest := by
    cases n.power with
    | none => exact .inl rfl
    | some e => exact .inr ⟨_, rfl⟩
  have hfraction : fractionText n.fraction = [] ∨
      ∃ rest, fractionText n.fraction = '.' :: rest := by
    cases n.fraction with
    | none => exact .inl rfl
    | some ds => exact .inr ⟨_, rfl⟩
  have htail : (fractionText n.fraction).tail = n.fraction.getD [] := by
    cases n.fraction <;> rfl
  rw [readSize, text, span_ne he hpower]
  dsimp only
  rw [span_ne (hwhole _ rfl) hfraction]
  dsimp only
  rw [powerOf_powerText, htail, size]

theorem numeric_text : ∀ c ∈ n.text, isNumeric c = true := by
  refine List.forall_mem_append.mpr ⟨List.forall_mem_append.mpr ⟨fun c hc => ?_, fun c hc => ?_⟩,
    fun c hc => ?_⟩
  · exact isNumeric_of_isDigit (n.whole_digits c hc)
  · rcases n.mem_fractionText hc with rfl | h
    · rfl
    · exact isNumeric_of_isDigit h
  · cases hp : n.power with
    | none => rw [hp] at hc; cases hc
    | some e =>
      rw [hp, powerText, List.mem_cons, List.mem_cons] at hc
      rcases hc with rfl | rfl | hc
      · rfl
      · split <;> rfl
      · exact isNumeric_of_isDigit (Nat.isDigit_of_mem_toDigits (by decide) (by decide) hc)

theorem head_text : ∃ d rest, n.text = d :: rest ∧ d.isDigit = true := by
  obtain ⟨d, rest, hd⟩ := List.exists_cons_of_ne_nil n.whole_ne_nil
  refine ⟨d, _, by rw [text, hd]; rfl, n.whole_digits d (hd ▸ List.mem_cons_self)⟩

theorem marked_text : '.' ∈ n.text ∨ 'e' ∈ n.text := by
  simp only [text, List.mem_append]
  rcases n.marked with h | h
  · obtain ⟨ds, hds⟩ := Option.ne_none_iff_exists'.mp h
    exact .inl (.inl (.inr (by rw [hds]; exact List.mem_cons_self)))
  · obtain ⟨e, he⟩ := Option.ne_none_iff_exists'.mp h
    exact .inr (.inr (by rw [he]; exact List.mem_cons_self))

/-- The place of the point does not change the size: digits laid out with the point behind
the `k`-th place are a numeral of the size of these digits, moved there. -/
theorem exists_layout {ds : List Char} (hds : ∀ c ∈ ds, c.isDigit = true) (hne : ds ≠ [])
    (k : ℤ) : ∃ n : Numeral, layout ds k = n.text ∧
      n.size = Digits.value ds * 10 ^ (k - ds.length) := by
  have hzeros (n : ℕ) : ∀ c ∈ List.replicate n '0', c.isDigit = true := fun c hc => by
    rw [List.eq_of_mem_replicate hc]
    rfl
  unfold layout
  dsimp only
  split
  -- the point stands behind the digits
  · rename_i hk
    refine ⟨⟨ds ++ List.replicate (k - ds.length).toNat '0', some (List.replicate 1 '0'), none,
      by simp [hne], List.forall_mem_append.mpr ⟨hds, hzeros _⟩, hzeros 1, .inl nofun⟩,
      (List.append_nil _).symm, ?_⟩
    have hlast : (10 : ℚ) * 10 ^ (0 - (['0'].length : ℤ)) = 1 := by norm_num
    simp only [size, Option.getD_some, Option.getD_none]
    rw [Digits.value_append_zeros, Digits.value_append_zeros]
    push_cast
    rw [mul_assoc, hlast, mul_one, ← zpow_natCast]
    congr 2
    omega
  split
  -- between them
  · rename_i hk
    have hfirst : ds.take k.toNat ≠ [] := by
      rw [Ne, List.take_eq_nil_iff, not_or]
      exact ⟨by omega, hne⟩
    refine ⟨⟨ds.take k.toNat, some (ds.drop k.toNat), none, hfirst,
      fun c hc => hds c (List.mem_of_mem_take hc), fun c hc => hds c (List.mem_of_mem_drop hc),
      .inl nofun⟩, (List.append_nil _).symm, ?_⟩
    simp only [size, Option.getD_some, Option.getD_none, List.take_append_drop, List.length_drop]
    congr 2
    omega
  split
  -- in front of them
  · rename_i hk
    refine ⟨⟨List.replicate 1 '0', some (List.replicate (-k).toNat '0' ++ ds), none, nofun,
      hzeros 1, List.forall_mem_append.mpr ⟨hzeros _, hds⟩, .inl nofun⟩,
      (List.append_nil _).symm, ?_⟩
    simp only [size, Option.getD_some, Option.getD_none, Digits.value_zeros_append,
      List.length_append, List.length_replicate]
    congr 2
    omega
  -- or behind the first of them, with a power of ten
  · cases ds with
    | nil => exact absurd rfl hne
    | cons d rest =>
      obtain ⟨hd, hrest⟩ := List.forall_mem_cons.mp hds
      cases rest with
      | nil =>
        refine ⟨⟨[d], none, some (k - 1), hne, hds, nofun, .inr nofun⟩, rfl, ?_⟩
        simp [size]
      | cons d' rest =>
        refine ⟨⟨[d], some (d' :: rest), some (k - 1), nofun, List.forall_mem_singleton.mpr hd,
          hrest, .inl nofun⟩, rfl, ?_⟩
        simp only [size, Option.getD_some, List.singleton_append, List.length_cons]
        congr 2
        omega

end Numeral

/-! ## Texts -/

/-- The number nearest to what is written. -/
def ofText? (cs : List Char) : Option Binary64 :=
  let (negative, r) := match cs with
    | '-' :: cs => (true, readSize cs)
    | cs => (false, readSize cs)
  if r = 0 then some (zero negative) else ofSize negative r

/-- A numeral behind a sign is read as the number nearest to its size. -/
theorem ofText?_numeral (negative : Bool) (n : Numeral) :
    ofText? ((if negative then ['-'] else []) ++ n.text) =
      if n.size = 0 then some (zero negative) else ofSize negative n.size := by
  rw [← n.readSize_text]
  cases negative with
  | true => rfl
  | false =>
    obtain ⟨d, rest, htext, hd⟩ := n.head_text
    have hminus : d ≠ '-' := by
      rintro rfl
      cases hd
    simp only [Bool.false_eq_true, if_false, List.nil_append, htext, ofText?]
    split
    · rename_i h
      exact absurd (List.cons.inj h).1 hminus
    · rfl

/-- The text of a number is a numeral behind its sign, of a size that rounds to the number. -/
theorem text_spec (hx : x.Canonical) : ∃ n : Numeral,
    x.text = (if x.negative then ['-'] else []) ++ n.text ∧
      (if n.size = 0 then some (zero x.negative) else ofSize x.negative n.size) = some x := by
  by_cases h0 : x.mantissa = 0
  · have hzero : zero x.negative = x := by
      obtain ⟨negative, m, e⟩ := x
      obtain rfl : m = 0 := h0
      obtain rfl : e = minExponent := hx.normal.resolve_left (by norm_num)
      rfl
    refine ⟨⟨['0'], some ['0'], none, nofun, by simp, by simp, .inl nofun⟩,
      by rw [text, if_pos h0]; rfl, ?_⟩
    rw [if_pos (by simp [Numeral.size, Digits.value]), hzero]
  · obtain ⟨hne, hround⟩ := shortest_rounds hx h0
    have hds : ∀ c ∈ Nat.toDigits 10 x.shortest.1, c.isDigit = true := fun c hc =>
      Nat.isDigit_of_mem_toDigits (by decide) (by decide) hc
    obtain ⟨n, htext, hsize⟩ := Numeral.exists_layout hds Nat.toDigits_ne_nil
      ((Nat.toDigits 10 x.shortest.1).length + x.shortest.2)
    rw [Digits.value_toDigits, add_sub_cancel_left] at hsize
    refine ⟨n, by rw [text, if_neg h0, ← htext], ?_⟩
    rw [hsize, if_neg, hround]
    have : (x.shortest.1 : ℚ) ≠ 0 := by exact_mod_cast hne
    positivity

theorem numeric_text (hx : x.Canonical) : ∀ c ∈ x.text, isNumeric c = true := by
  obtain ⟨n, htext, -⟩ := text_spec hx
  rw [htext]
  exact List.forall_mem_append.mpr ⟨by split <;> simp [isNumeric], n.numeric_text⟩

theorem head_text (hx : x.Canonical) :
    ∃ c cs, x.text = c :: cs ∧ (c.isDigit = true ∨ c = '-') := by
  obtain ⟨n, htext, -⟩ := text_spec hx
  obtain ⟨d, rest, hn, hd⟩ := n.head_text
  rw [htext, hn]
  cases x.negative
  · exact ⟨d, rest, rfl, .inl hd⟩
  · exact ⟨'-', d :: rest, rfl, .inr rfl⟩

theorem marked_text (hx : x.Canonical) : '.' ∈ x.text ∨ 'e' ∈ x.text := by
  obtain ⟨n, htext, -⟩ := text_spec hx
  rw [htext]
  exact n.marked_text.imp (List.mem_append_right _) (List.mem_append_right _)

/-- The text of a number rounds back to it. -/
theorem ofText?_text (hx : x.Canonical) : ofText? x.text = some x := by
  obtain ⟨n, htext, hround⟩ := text_spec hx
  rw [htext, ofText?_numeral, hround]

/-- The text of a number determines it. -/
theorem text_inj {x y : Binary64} (hx : x.Canonical) (hy : y.Canonical) (h : x.text = y.text) :
    x = y := by
  have hread := ofText?_text hx
  rw [h, ofText?_text hy] at hread
  exact (Option.some.inj hread).symm

end Binary64

end Statechart
