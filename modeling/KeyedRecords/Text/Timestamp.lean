/-! The date and time texts of RFC 3339: a calendar date, `T`, `t` or a blank, a time of day with an optional
fraction, and the offset from UTC. -/

namespace KeyedRecords.Timestamp

/-- The number of exactly `count` ASCII digits in front, and the rest. -/
def digits? (count : Nat) (cs : List Char) : Option (Nat × List Char) :=
  let front := cs.take count
  if front.length = count ∧ front.all Char.isDigit then
    some (front.foldl (fun n c => 10 * n + (c.toNat - '0'.toNat)) 0, cs.drop count)
  else none

/-- The text after one of some characters. -/
def oneOf? (allowed : List Char) : List Char → Option (List Char)
  | c :: rest => if c ∈ allowed then some rest else none
  | [] => none

def isLeapYear (year : Nat) : Bool := year % 4 = 0 && (year % 100 ≠ 0 || year % 400 = 0)

/-- The number of days of a month; none outside January to December. -/
def daysIn (year month : Nat) : Nat :=
  if month = 2 then if isLeapYear year then 29 else 28
  else if month ∈ [4, 6, 9, 11] then 30
  else if 1 ≤ month ∧ month ≤ 12 then 31
  else 0

/-- The text after a calendar date. -/
def afterDate? (cs : List Char) : Option (List Char) := do
  let (year, cs) ← digits? 4 cs
  let cs ← oneOf? ['-'] cs
  let (month, cs) ← digits? 2 cs
  let cs ← oneOf? ['-'] cs
  let (day, cs) ← digits? 2 cs
  if 1 ≤ day ∧ day ≤ daysIn year month then some cs else none

/-- The text after an optional point with one or more digits. -/
def afterFraction? : List Char → Option (List Char)
  | '.' :: cs => if (cs.takeWhile Char.isDigit).isEmpty then none else some (cs.dropWhile Char.isDigit)
  | cs => some cs

/-- The text after a time of day; second 60 is a leap second. -/
def afterTime? (cs : List Char) : Option (List Char) := do
  let (hour, cs) ← digits? 2 cs
  let cs ← oneOf? [':'] cs
  let (minute, cs) ← digits? 2 cs
  let cs ← oneOf? [':'] cs
  let (second, cs) ← digits? 2 cs
  if hour < 24 ∧ minute < 60 ∧ second ≤ 60 then afterFraction? cs else none

/-- The text after an offset: `Z`, or hours and minutes under a day with a sign, which may be the minus
sign U+2212. -/
def afterOffset? : List Char → Option (List Char)
  | [] => none
  | sign :: cs =>
    if sign = 'Z' ∨ sign = 'z' then some cs
    else if sign ∉ ['+', '-', '\u2212'] then none
    else do
      let (hour, cs) ← digits? 2 cs
      let cs ← oneOf? [':'] cs
      let (minute, cs) ← digits? 2 cs
      if hour < 24 ∧ minute < 60 then some cs else none

def isValid (s : String) : Bool :=
  let rest := do
    let cs ← afterDate? s.toList
    let cs ← oneOf? ['T', 't', ' '] cs
    let cs ← afterTime? cs
    afterOffset? cs
  rest = some []

end KeyedRecords.Timestamp
