import KeyedRecords.Number.Binary64

/-! The digits written are the fewest that read back to the same float, and of those the nearest to it. The layout is
positional while the point stays near the digits and scientific beyond. -/

namespace KeyedRecords

namespace Binary64

/-- Whether `coefficient · 10 ^ exponent` reads as the magnitude of `x`. -/
def readsBack (x : Binary64) (coefficient : Nat) (exponent : Int) : Bool :=
  ofDecimal? x.negative coefficient exponent = some x

/-- The decimal of `x` cut to its leading digits: the two neighbours on the grid that leaves out the last
`drop` digits of the exact value, as far as they read back, the nearer one first and the even one of a
tie. -/
def cutDecimal? (x : Binary64) (drop : Nat) : Option (Nat × Int) :=
  let (coefficient, exponent) := x.exactDecimal
  let unit := Nat.pow 10 drop
  let low := coefficient / unit
  let twice := 2 * (coefficient % unit)
  let lowFirst := twice < unit ∨ (twice = unit ∧ low % 2 = 0)
  let order := if lowFirst then [low, low + 1] else [low + 1, low]
  let grid := exponent + drop
  (order.find? (x.readsBack · grid)).map (·, grid)

/-- The decimal with the fewest digits that reads back: the exact one if it has at most 17 digits and no
shorter cut does. -/
def shortestDecimal (x : Binary64) : Nat × Int :=
  let exact := x.exactDecimal
  let digits := (Nat.toDigits 10 exact.1).length
  let cuts := (List.range (min 17 (digits - 1))).map fun kept => digits - 1 - kept
  (cuts.findSome? x.cutDecimal?).getD exact

end Binary64

/-- How a float is laid out: `positional` tells, for a value `0.d₁d₂… · 10 ^ k`, whether the point is
written in its place. -/
structure FloatLayout where
  positional : Int → Bool

namespace FloatLayout

/-- Positional for values from `10 ^ -5` up to below `10 ^ 16`, scientific beyond. -/
def standard : FloatLayout := ⟨fun k => -5 < k && k ≤ 16⟩

/-- The point put at place `k` of the digits: `.0` follows a whole number, `0.` precedes a fraction. -/
def fixed (digits : List Char) (k : Int) : List Char :=
  if k ≤ 0 then '0' :: '.' :: List.replicate (-k).toNat '0' ++ digits
  else if digits.length ≤ k.toNat then
    digits ++ List.replicate (k.toNat - digits.length) '0' ++ ['.', '0']
  else digits.take k.toNat ++ '.' :: digits.drop k.toNat

/-- One digit before the point, no point after a single digit, and an exponent with its sign. -/
def scientific (digits : List Char) (k : Int) : List Char :=
  let fraction := digits.drop 1
  let point := if fraction.isEmpty then [] else '.' :: fraction
  let sign := if k - 1 < 0 then '-' else '+'
  digits.take 1 ++ point ++ 'e' :: sign :: Nat.toDigits 10 (k - 1).natAbs

/-- The text of the digits of `coefficient`, its trailing zeros dropped, with the point at place `k`. -/
def write (layout : FloatLayout) (coefficient : Nat) (exponent : Int) : List Char :=
  let digits := Nat.toDigits 10 coefficient
  let k := digits.length + exponent
  let kept := (digits.reverse.dropWhile (· == '0')).reverse
  if layout.positional k then fixed kept k else scientific kept k

end FloatLayout

/-- The text of a float: zero is `0.0` with its sign. -/
def Binary64.text (x : Binary64) : String :=
  let (coefficient, exponent) := x.shortestDecimal
  let body := if x.significand = 0 then ['0', '.', '0'] else FloatLayout.standard.write coefficient exponent
  String.ofList (if x.negative then '-' :: body else body)

end KeyedRecords
