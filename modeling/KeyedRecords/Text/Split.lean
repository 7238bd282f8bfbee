/-! Cutting a text at every point, at the first of a character, or at the last double underscore. -/

namespace KeyedRecords.Text

/-- The parts between the occurrences of a character; never empty. -/
def splitAll (separator : Char) : List Char → List (List Char)
  | [] => [[]]
  | c :: rest =>
    if c = separator then [] :: splitAll separator rest
    else match splitAll separator rest with
      | [] => [[c]]
      | part :: parts => (c :: part) :: parts

def dotted (path : String) : List String := (splitAll '.' path.toList).map String.ofList

def splitFirst? (separator : Char) : List Char → Option (List Char × List Char)
  | [] => none
  | c :: rest =>
    if c = separator then some ([], rest)
    else (splitFirst? separator rest).map fun (before, after) => (c :: before, after)

def splitLastUnderscores? : List Char → Option (List Char × List Char)
  | [] => none
  | c :: rest =>
    match splitLastUnderscores? rest with
    | some (before, after) => some (c :: before, after)
    | none =>
      match rest with
      | '_' :: after => if c = '_' then some ([], after) else none
      | _ => none

/-- The text cut after so many bytes of its UTF-8 form, if that is between two characters. -/
def splitAtByte? : Nat → List Char → Option (List Char × List Char)
  | 0, cs => some ([], cs)
  | _ + 1, [] => none
  | n + 1, c :: rest =>
    if c.utf8Size ≤ n + 1 then
      (splitAtByte? (n + 1 - c.utf8Size) rest).map fun (before, after) => (c :: before, after)
    else none

end KeyedRecords.Text
