/-! An identifier is made from the time at which it is made and a unique text, so that identifiers sort by the time
they were made. -/

namespace KeyedRecords

structure Identifier where
  /-- Whole seconds since 1970. -/
  seconds : Nat
  /-- Microseconds within the second. -/
  micros : Nat
  /-- A text that no other identifier has. -/
  unique : String
  deriving DecidableEq, Repr

/-- A number in at least six digits. -/
def sixDigits (n : Nat) : List Char :=
  let digits := Nat.toDigits 10 n
  List.replicate (6 - digits.length) '0' ++ digits

def Identifier.text (id : Identifier) : String :=
  toString id.seconds ++ "." ++ String.ofList (sixDigits id.micros) ++ "-" ++ id.unique

end KeyedRecords
