/-! A finite 64-bit float is kept as `±significand · 2 ^ exponent`, in its one canonical form, so two numbers of one
sign are the same float exactly when they are equal. Every operation computes exactly on integers and rounds once, to
the nearest float, a tie going to the even significand. -/

namespace KeyedRecords

/-- The leading one of the 53 bits of a full significand: `2 ^ 52`. -/
abbrev Binary64.leadingBit : Nat := 4503599627370496

/-- The significands and exponents of finite 64-bit floats: 53 bits, with the leading bit set unless the
exponent is the least one. -/
def Binary64.Canonical (significand : Nat) (exponent : Int) : Prop :=
  significand < 2 * leadingBit ∧ -1074 ≤ exponent ∧ exponent ≤ 971 ∧
    (leadingBit ≤ significand ∨ exponent = -1074)

instance (m : Nat) (e : Int) : Decidable (Binary64.Canonical m e) :=
  inferInstanceAs (Decidable (_ ∧ _ ∧ _ ∧ (_ ∨ _)))

/-- A finite 64-bit float; zero has a sign. -/
structure Binary64 where
  negative : Bool
  significand : Nat
  exponent : Int
  canonical : Binary64.Canonical significand exponent
  deriving DecidableEq

namespace Binary64

def zero (negative : Bool) : Binary64 := ⟨negative, 0, -1074, by decide⟩

instance : Inhabited Binary64 := ⟨zero false⟩

def ofParts? (negative : Bool) (significand : Nat) (exponent : Int) : Option Binary64 :=
  if h : Canonical significand exponent then some ⟨negative, significand, exponent, h⟩ else none

/-- The integer nearest to `num / den`, a tie going to the even one. -/
def nearest (num den : Nat) : Nat :=
  let quotient := num / den
  let twice := 2 * (num % den)
  if twice < den then quotient
  else if den < twice then quotient + 1
  else if quotient % 2 = 0 then quotient
  else quotient + 1

/-- Whether `num / den < 2 ^ k`. -/
def below (num den : Nat) (k : Int) : Bool :=
  num * Nat.pow 2 (-k).toNat < den * Nat.pow 2 k.toNat

/-- The exponent of the unit in the last place of the floats around the positive ratio `num / den`. -/
def unitExponent (num den : Nat) : Int :=
  let k : Int := Nat.log2 num - Nat.log2 den
  max (-1074) (if below num den k then k - 53 else k - 52)

/-- The float nearest to `± num / den`, for a positive `den`; none beyond the largest finite one. -/
def ofRatio? (negative : Bool) (num den : Nat) : Option Binary64 :=
  if num = 0 then some (zero negative)
  else
    let e := unitExponent num den
    let m := nearest (num * Nat.pow 2 (-e).toNat) (den * Nat.pow 2 e.toNat)
    if m = 2 * leadingBit then ofParts? negative leadingBit (e + 1) else ofParts? negative m e

/-- The float nearest to `± significand · 2 ^ exponent`. -/
def ofScaled? (negative : Bool) (significand : Nat) (exponent : Int) : Option Binary64 :=
  ofRatio? negative (significand * Nat.pow 2 exponent.toNat) (Nat.pow 2 (-exponent).toNat)

def ofInt? (n : Int) : Option Binary64 := ofRatio? (n < 0) n.natAbs 1

/-- The float nearest to `± coefficient · 10 ^ exponent`. An exponent out of any float's reach is settled
without computing the power. -/
def ofDecimal? (negative : Bool) (coefficient : Nat) (exponent : Int) : Option Binary64 :=
  if coefficient = 0 then some (zero negative)
  else if 310 < exponent then none
  else if exponent + Nat.log2 coefficient + 1 < -330 then some (zero negative)
  else ofRatio? negative (coefficient * Nat.pow 10 exponent.toNat) (Nat.pow 10 (-exponent).toNat)

/-- The signed significand: the value is `units · 2 ^ exponent`. -/
def units (x : Binary64) : Int := if x.negative then -x.significand else x.significand

/-- The signed significand on a finer grid. -/
def unitsAt (x : Binary64) (exponent : Int) : Int := x.units * Nat.pow 2 (x.exponent - exponent).toNat

/-- The integer that is left when the fraction is cut off. -/
def toInt (x : Binary64) : Int := (x.unitsAt 0).tdiv (Nat.pow 2 (-x.exponent).toNat)

/-- The sum, rounded once; none if it is beyond the largest finite float. An exact zero is negative only
as the sum of two negative zeros. -/
def add? (x y : Binary64) : Option Binary64 :=
  let e := min x.exponent y.exponent
  let sum := x.unitsAt e + y.unitsAt e
  ofScaled? (if sum = 0 then x.negative && y.negative else sum < 0) sum.natAbs e

/-- The order of values; the two zeros are equal in it. -/
def le (x y : Binary64) : Bool :=
  let e := min x.exponent y.exponent
  x.unitsAt e ≤ y.unitsAt e

/-- The exact decimal value of the magnitude: `coefficient · 10 ^ exponent`. -/
def exactDecimal (x : Binary64) : Nat × Int :=
  if 0 ≤ x.exponent then (x.significand * Nat.pow 2 x.exponent.toNat, 0)
  else (x.significand * Nat.pow 5 (-x.exponent).toNat, x.exponent)

end Binary64

end KeyedRecords
