/-!
# Finite binary floating-point numbers

A finite number of the 64-bit binary format is a sign, a mantissa below `2 ^ 53` and an
exponent of two. `ofDecimal` rounds a decimal numeral to the nearest such number (a tie goes
to the even mantissa); `shortest` finds the fewest decimal digits that round back to it, and
among those the nearest; `text` lays these digits out. `ofScaled` is what a numeral is read
as: it rounds the digits, the power of ten and their product one by one, so it may miss the
nearest number. All arithmetic is on natural numbers.
-/
namespace Statechart

/-- A finite number: `mantissa * 2 ^ exponent`, negated if `negative`. -/
structure Binary64 where
  negative : Bool
  mantissa : Nat
  exponent : Int
deriving DecidableEq, Repr

namespace Binary64

def minExponent : Int := -1074

def maxExponent : Int := 971

def zero (negative : Bool) : Binary64 := ⟨negative, 0, minExponent⟩

/-- A quotient to the nearest natural number; a tie goes to the even one. -/
def roundQuotient (num den : Nat) : Nat :=
  let q := num / den
  let r := num % den
  if 2 * r < den then q else if den < 2 * r then q + 1 else q + q % 2

/-- The number nearest to `num / den`; none if it is too large for the format. -/
def ofQuotient (negative : Bool) (num den : Nat) : Option Binary64 :=
  let a : Int := Nat.log2 num
  let b : Int := Nat.log2 den
  let below :=
    if a < b then num * Nat.pow 2 (b - a).toNat < den else num < den * Nat.pow 2 (a - b).toNat
  let e := max minExponent (if below then a - b - 53 else a - b - 52)
  let m :=
    if 0 ≤ e then roundQuotient num (den * Nat.pow 2 e.toNat)
    else roundQuotient (num * Nat.pow 2 (-e).toNat) den
  let (m, e) := if m = Nat.pow 2 53 then (Nat.pow 2 52, e + 1) else (m, e)
  if maxExponent < e then none else some ⟨negative, m, e⟩

/-- The number nearest to `digits * 10 ^ scale`; none if it is too large for the format. -/
def ofDecimal (negative : Bool) (digits : Nat) (scale : Int) : Option Binary64 :=
  if digits = 0 then some (zero negative)
  else if 400 < scale then none
  else if scale + Nat.log2 digits < -400 then some (zero negative)
  else if 0 ≤ scale then ofQuotient negative (digits * Nat.pow 10 scale.toNat) 1
  else ofQuotient negative digits (Nat.pow 10 (-scale).toNat)

/-- The number without its sign, as numerator and denominator. -/
def fraction (x : Binary64) : Nat × Nat :=
  if 0 ≤ x.exponent then (x.mantissa * Nat.pow 2 x.exponent.toNat, 1)
  else (x.mantissa, Nat.pow 2 (-x.exponent).toNat)

/-- Whether two numbers are equal as numbers: zero has two signs. -/
def same (x y : Binary64) : Bool := x == y || (x.mantissa == 0 && y.mantissa == 0)

theorem same_self (x : Binary64) : x.same x = true := by simp [same]

/-! ## Products -/

/-- The number nearest to a product; none if it is too large for the format. -/
def mul? (x y : Binary64) : Option Binary64 :=
  let (a, b) := x.fraction
  let (c, d) := y.fraction
  let negative := x.negative != y.negative
  if a * c = 0 then some (zero negative) else ofQuotient negative (a * c) (b * d)

/-- The number nearest to a quotient; none if it is too large for the format, or if the
divisor is zero. -/
def div? (x y : Binary64) : Option Binary64 :=
  let (a, b) := x.fraction
  let (c, d) := y.fraction
  let negative := x.negative != y.negative
  if c = 0 then none
  else if a = 0 then some (zero negative)
  else ofQuotient negative (a * d) (b * c)

/-- The number nearest to a power of ten; none if it is too large for the format. -/
def powerOfTen (n : Nat) : Option Binary64 := ofDecimal false 1 n

/-- The greatest power of ten that is not too large for the format. -/
def maxPower : Int := 308

/-- What the numeral `digits * 10 ^ scale` is read as, for fewer digits than fit in 64 bits;
none if it is too large for the format. The digits are rounded, then multiplied or divided by
the rounded power of ten; a scale below that of the smallest power is divided off in two
steps. -/
def ofScaled (negative : Bool) (digits : Nat) (scale : Int) : Option Binary64 := do
  if digits = 0 then return zero negative
  let x ← ofDecimal negative digits 0
  if 0 ≤ scale then x.mul? (← powerOfTen scale.toNat)
  else if -maxPower ≤ scale then x.div? (← powerOfTen (-scale).toNat)
  else if -(2 * maxPower) ≤ scale then
    let y ← x.div? (← powerOfTen maxPower.toNat)
    y.div? (← powerOfTen (-scale - maxPower).toNat)
  else return zero negative

/-! ## Written form -/

def digitCount (n : Nat) : Nat := (Nat.toDigits 10 n).length

/-- The places of `num / den` before the decimal point: the `k` for which the quotient is at
least `10 ^ (k - 1)` and less than `10 ^ k`. -/
def places (num den : Nat) : Int :=
  if den ≤ num then digitCount (num / den)
  else
    let rec leading : Nat → Nat → Nat
      | 0, j => j
      | fuel + 1, j => if den ≤ num * Nat.pow 10 j then j else leading fuel (j + 1)
    1 - leading 400 1

/-- Whether `digits * 10 ^ scale` rounds to the number. -/
def roundsTo (x : Binary64) (digits : Nat) (scale : Int) : Bool :=
  ofDecimal x.negative digits scale == some x

/-- The nearest point of the grid of `n` digits that rounds to a positive number, if one does. -/
def onGrid (x : Binary64) (n : Nat) : Option (Nat × Int) :=
  let (num, den) := x.fraction
  let scale := places num den - n
  let (num, den) :=
    if 0 ≤ scale then (num, den * Nat.pow 10 scale.toNat)
    else (num * Nat.pow 10 (-scale).toNat, den)
  let low := num / den
  let r := num % den
  let (near, far) :=
    if 2 * r < den ∨ (2 * r = den ∧ low % 2 = 0) then (low, low + 1) else (low + 1, low)
  if x.roundsTo near scale then some (near, scale)
  else if x.roundsTo far scale then some (far, scale)
  else none

/-- Drops the zeros at the end of a numeral. -/
def trim : Nat → Nat → Int → Nat × Int
  | 0, digits, scale => (digits, scale)
  | fuel + 1, digits, scale =>
    if digits % 10 = 0 ∧ digits ≠ 0 then trim fuel (digits / 10) (scale + 1) else (digits, scale)

/-- The fewest digits that round back to the number, and the power of ten they are scaled by. -/
def shortest (x : Binary64) : Nat × Int :=
  match (List.range 17).findSome? (fun n => x.onGrid (n + 1)) with
  | some (digits, scale) => trim 20 digits scale
  | none => (x.mantissa, x.exponent)

/-- The text of digits with a decimal point after the first `k` places: positional, with at
least one digit on either side of the point, where `-5 < k ≤ 16`; otherwise with a signed
exponent. -/
def layout (digits : List Char) (k : Int) : List Char :=
  let n : Int := digits.length
  if n ≤ k ∧ k ≤ 16 then digits ++ List.replicate (k - n).toNat '0' ++ ['.', '0']
  else if 0 < k ∧ k ≤ 16 then digits.take k.toNat ++ '.' :: digits.drop k.toNat
  else if -5 < k ∧ k ≤ 0 then '0' :: '.' :: List.replicate (-k).toNat '0' ++ digits
  else
    let e := k - 1
    let power := 'e' :: (if e < 0 then '-' else '+') :: Nat.toDigits 10 e.natAbs
    match digits with
    | [d] => d :: power
    | d :: rest => d :: '.' :: rest ++ power
    | [] => power

def text (x : Binary64) : List Char :=
  let sign := if x.negative then ['-'] else []
  if x.mantissa = 0 then sign ++ ['0', '.', '0']
  else
    let (digits, scale) := x.shortest
    let ds := Nat.toDigits 10 digits
    sign ++ layout ds (ds.length + scale)

end Binary64

end Statechart
