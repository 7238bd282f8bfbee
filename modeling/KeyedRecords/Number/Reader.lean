import KeyedRecords.Number.Basic

/-! A text is read as an integer when it is one and fits a word, and as the nearest float otherwise. -/

namespace KeyedRecords

namespace Digits

def value (digits : List Char) : Nat := digits.foldl (fun n c => 10 * n + (c.toNat - '0'.toNat)) 0

def nat? (cs : List Char) : Option Nat :=
  if cs.isEmpty || !cs.all Char.isDigit then none else some (value cs)

/-- A leading sign, taken off: whether it was a minus, and the rest. -/
def sign : List Char → Bool × List Char
  | '+' :: cs => (false, cs)
  | '-' :: cs => (true, cs)
  | cs => (false, cs)

def int? (cs : List Char) : Option Int :=
  let (negative, digits) := sign cs
  (nat? digits).map fun n => if negative then -n else n

/-- The longest run of digits in front, and the rest. -/
def span (cs : List Char) : List Char × List Char := (cs.takeWhile Char.isDigit, cs.dropWhile Char.isDigit)

end Digits

/-- A decimal text in its parts: digits before and after the point, and the exponent. -/
structure DecimalText where
  negative : Bool
  whole : List Char
  fraction : List Char
  exponent : Int
  deriving DecidableEq

namespace DecimalText

/-- The exponent part: nothing, or `e` with an optionally signed number. -/
def exponent? : List Char → Option Int
  | [] => some 0
  | c :: cs => if c = 'e' ∨ c = 'E' then Digits.int? cs else none

/-- Sign, digits with an optional point and at least one digit in all, exponent. -/
def parse? (cs : List Char) : Option DecimalText :=
  let (negative, unsigned) := Digits.sign cs
  let (whole, afterWhole) := Digits.span unsigned
  let (fraction, afterFraction) := match afterWhole with
    | '.' :: rest => Digits.span rest
    | rest => ([], rest)
  if whole.isEmpty && fraction.isEmpty then none
  else (exponent? afterFraction).map fun exponent => ⟨negative, whole, fraction, exponent⟩

def toFloat? (d : DecimalText) : Option Binary64 :=
  Binary64.ofDecimal? d.negative (Digits.value (d.whole ++ d.fraction)) (d.exponent - d.fraction.length)

end DecimalText

namespace Number

def integerOfText? (s : String) : Option Number := (Digits.int? s.toList).bind ofInt?

def floatOfText? (s : String) : Option Number :=
  ((DecimalText.parse? s.toList).bind DecimalText.toFloat?).map float

/-- Whether a text stands for a float that is not finite: a word for infinity or for what is no number, in
letters of either case, or a decimal beyond the largest float. -/
def isNonFiniteText (s : String) : Bool :=
  let word := String.ofList ((Digits.sign s.toList).2.map Char.toLower)
  word = "inf" || word = "infinity" || word = "nan" ||
    (DecimalText.parse? s.toList).any fun d => d.toFloat?.isNone

/-- The number that a text writes: a sign of either kind and leading zeros are fine, blanks are not. -/
def ofText? (s : String) : Option Number := (integerOfText? s).or (floatOfText? s)

/-- The number of a JSON number text: as `ofText?`, but minus zero is a float. -/
def ofJsonText? (s : String) : Option Number := if s = "-0" then floatOfText? s else ofText? s

end Number

end KeyedRecords
