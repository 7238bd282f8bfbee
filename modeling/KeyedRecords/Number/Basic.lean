import KeyedRecords.Number.Shortest

/-! A number is an integer of at most 64 bits, signed or unsigned, or a finite float. The two forms never mix: `3` and
`3.0` are different numbers with different texts. -/

namespace KeyedRecords

/-- The integers that fit a signed or an unsigned 64-bit word: from `-2 ^ 63` up to below `2 ^ 64`. -/
def WordRange (n : Int) : Prop := -9223372036854775808 ≤ n ∧ n < 18446744073709551616

instance (n : Int) : Decidable (WordRange n) := inferInstanceAs (Decidable (_ ∧ _))

inductive Number where
  | integer (n : Int) (inRange : WordRange n)
  | float (x : Binary64)
  deriving DecidableEq

namespace Number

def ofInt? (n : Int) : Option Number := if h : WordRange n then some (integer n h) else none

def zero : Number := integer 0 (by decide)

instance : Inhabited Number := ⟨zero⟩

/-- The text of a number: all digits of an integer, the shortest decimal of a float. -/
def text : Number → String
  | integer n _ => toString n
  | float x => x.text

def toFloat : Number → Binary64
  | integer n _ => (Binary64.ofInt? n).getD default
  | float x => x

def isFloat : Number → Bool
  | integer _ _ => false
  | float _ => true

def le (a b : Number) : Bool := a.toFloat.le b.toFloat

/-- Whether an integer fits a signed word: from `-2 ^ 63` up to below `2 ^ 63`. -/
def isSigned (n : Int) : Bool := -9223372036854775808 ≤ n && n < 9223372036854775808

/-- Whether a number stands for an integer between two bounds. A float does if it is the nearest float of
its integer part brought within the bounds, so the float just above a bound that is no float counts too. -/
def isIntegerWithin (least greatest : Int) : Number → Bool
  | integer n _ => least ≤ n && n ≤ greatest
  | float x => (Binary64.ofInt? (max least (min x.toInt greatest))).any fun y => x.le y && y.le x

/-- The sum of two signed integers that is itself signed. -/
def signedSum? : Number → Number → Option Number
  | integer a _, integer b _ =>
    if isSigned a && isSigned b && isSigned (a + b) then ofInt? (a + b) else none
  | _, _ => none

/-- The sum: exact where both numbers and the result are signed integers, otherwise the sum of the nearest
floats; none if that is not finite. -/
def add? (a b : Number) : Option Number :=
  (signedSum? a b).or ((a.toFloat.add? b.toFloat).map float)

end Number

end KeyedRecords
