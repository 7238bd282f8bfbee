/-! Bytes as text, and the place and length of the first sequence that is no character. -/

namespace KeyedRecords.Utf8

/-- The first sequence of bytes that encodes no character: its index, and how many bytes show that it is
wrong, or nothing when the bytes end within it. -/
structure Fault where
  index : Nat
  length? : Option Nat
  deriving DecidableEq

def Fault.message : Fault → String
  | ⟨index, some length⟩ => s!"invalid utf-8 sequence of {length} bytes from index {index}"
  | ⟨index, none⟩ => s!"incomplete utf-8 byte sequence from index {index}"

/-- The bytes that may follow a first byte, range by range. -/
def followers (first : UInt8) : Option (List (UInt8 × UInt8)) :=
  let any := (0x80, 0xBF)
  if first < 0x80 then some []
  else if 0xC2 ≤ first ∧ first ≤ 0xDF then some [any]
  else if first = 0xE0 then some [(0xA0, 0xBF), any]
  else if first = 0xED then some [(0x80, 0x9F), any]
  else if 0xE1 ≤ first ∧ first ≤ 0xEF then some [any, any]
  else if first = 0xF0 then some [(0x90, 0xBF), any, any]
  else if 0xF1 ≤ first ∧ first ≤ 0xF3 then some [any, any, any]
  else if first = 0xF4 then some [(0x80, 0x8F), any, any]
  else none

/-- What the bytes after a first one look like against the ranges they have to be in. -/
inductive Match where
  /-- All ranges are filled; so many bytes were taken. -/
  | complete (taken : Nat)
  /-- The byte after so many good ones is out of range. -/
  | wrong (good : Nat)
  /-- The bytes end too early. -/
  | short

def follow (taken : Nat) : List (UInt8 × UInt8) → List UInt8 → Match
  | [], _ => .complete taken
  | _ :: _, [] => .short
  | (low, high) :: ranges, byte :: rest =>
    if low ≤ byte ∧ byte ≤ high then follow (taken + 1) ranges rest else .wrong taken

/-- The first fault from an index on; `skip` bytes belong to the character before. -/
def fault? (index skip : Nat) : List UInt8 → Option Fault
  | [] => none
  | byte :: rest =>
    match skip with
    | skip + 1 => fault? (index + 1) skip rest
    | 0 =>
      match followers byte with
      | none => some ⟨index, some 1⟩
      | some ranges =>
        match follow 0 ranges rest with
        | .complete taken => fault? (index + 1) taken rest
        | .wrong good => some ⟨index, some (good + 1)⟩
        | .short => some ⟨index, none⟩

def encode (s : String) : List UInt8 := s.toUTF8.toList

def decode (bytes : List UInt8) : Except Fault String :=
  match String.fromUTF8? (ByteArray.mk bytes.toArray) with
  | some s => .ok s
  | none => .error ((fault? 0 0 bytes).getD ⟨0, none⟩)

end KeyedRecords.Utf8
