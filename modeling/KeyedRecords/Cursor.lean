import KeyedRecords.Error
import KeyedRecords.Number.Reader
import KeyedRecords.Text.Split

/-! A cursor is a key as a token: base64 of the byte length of the partition key, a colon, and the two keys. -/

namespace KeyedRecords

structure Cursor where
  text : String
  deriving DecidableEq, Repr, Inhabited

namespace Cursor

def token (key : Key) : String :=
  toString key.partition.utf8ByteSize ++ ":" ++ key.partition ++ key.sort

def encode (key : Key) : Cursor := ⟨String.ofList (Base64.encode (Utf8.encode (token key)))⟩

/-- A byte length that fits a 64-bit word, with an optional plus. -/
def length? (cs : List Char) : Option Nat :=
  let digits := match cs with
    | '+' :: rest => rest
    | _ => cs
  (Digits.nat? digits).filter (· < UInt64.size)

def readToken (token : String) : Except CursorFault Key := do
  match Text.splitFirst? ':' token.toList with
  | none => throw .noSeparator
  | some (front, rest) =>
    match length? front with
    | none => throw .malformedLength
    | some length =>
      match Text.splitAtByte? length rest with
      | none => throw .lengthOutOfRange
      | some (partition, sort) => pure ⟨String.ofList partition, String.ofList sort⟩

/-- The key of a token in base64. -/
def readText (text : String) : Except CursorFault Key := do
  let bytes ← (Base64.decode (Utf8.encode text)).mapError .base64
  let token ← (Utf8.decode bytes).mapError .utf8
  readToken token

def decode (cursor : Cursor) : Result Key := (readText cursor.text).mapError .invalidCursor

/-- The cursor of a text from outside, if it points at a key. -/
def ofText (text : String) : Result Cursor := do
  let _ ← decode ⟨text⟩
  pure ⟨text⟩

end Cursor

end KeyedRecords
