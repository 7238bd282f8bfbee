/-! The padded standard alphabet, read strictly: nothing outside the alphabet, padding only as needed to fill the last
group of four, and no bit set that does not belong to a byte. `decode` says which byte broke which rule. -/

namespace KeyedRecords.Base64

def alphabet : List Char := "ABCDEFGHIJKLMNOPQRSTUVWXYZabcdefghijklmnopqrstuvwxyz0123456789+/".toList

def symbol (value : Nat) : Char := alphabet.getD value 'A'

def value? (byte : UInt8) : Option Nat :=
  let b := byte.toNat
  if 65 ≤ b ∧ b ≤ 90 then some (b - 65)
  else if 97 ≤ b ∧ b ≤ 122 then some (b - 97 + 26)
  else if 48 ≤ b ∧ b ≤ 57 then some (b - 48 + 52)
  else if b = 43 then some 62
  else if b = 47 then some 63
  else none

def pad : UInt8 := 61

/-- Three bytes make four symbols; one or two bytes at the end are padded. -/
def encode : List UInt8 → List Char
  | a :: b :: c :: rest =>
    let (a, b, c) := (a.toNat, b.toNat, c.toNat)
    symbol (a / 4) :: symbol (a % 4 * 16 + b / 16) :: symbol (b % 16 * 4 + c / 64) :: symbol (c % 64) ::
      encode rest
  | [a, b] =>
    let (a, b) := (a.toNat, b.toNat)
    [symbol (a / 4), symbol (a % 4 * 16 + b / 16), symbol (b % 16 * 4), '=']
  | [a] => [symbol (a.toNat / 4), symbol (a.toNat % 4 * 16), '=', '=']
  | [] => []

/-- Why a text is no base64. -/
inductive Fault where
  | symbol (byte : UInt8) (offset : Nat)
  | length (length : Nat)
  | padding
  | lastSymbol (byte : UInt8) (offset : Nat)
  deriving DecidableEq

def Fault.message : Fault → String
  | symbol byte offset => s!"Invalid symbol {byte}, offset {offset}."
  | length n => s!"Invalid input length: {n}"
  | padding => "Invalid padding"
  | lastSymbol byte offset => s!"Invalid last symbol {byte}, offset {offset}."

def valueAt (byte : UInt8) (offset : Nat) : Except Fault Nat :=
  (value? byte).elim (.error (.symbol byte offset)) .ok

def bytes (a b c d : Nat) : List UInt8 :=
  [UInt8.ofNat (a * 4 + b / 16), UInt8.ofNat (b % 16 * 16 + c / 4), UInt8.ofNat (c % 4 * 64 + d)]

/-- The values of the symbols in the last group, and how much padding follows them: padding stands neither
in the first two places nor before a symbol. -/
def lastGroup (offset place : Nat) : List UInt8 → Except Fault (List Nat × Nat)
  | [] => .ok ([], 0)
  | byte :: rest =>
    if byte = pad then
      if place < 2 then .error (.symbol byte (offset + place))
      else if rest.all (· = pad) then .ok ([], rest.length + 1)
      else .error (.symbol pad (offset + place))
    else do
      let value ← valueAt byte (offset + place)
      let (values, pads) ← lastGroup offset (place + 1) rest
      pure (value :: values, pads)

def decodeLast (offset : Nat) (group : List UInt8) : Except Fault (List UInt8) := do
  let (values, pads) ← lastGroup offset 0 group
  let count := values.length
  let last := group.getD (count - 1) pad
  if count < 2 then throw (.length (offset + count))
  if count + pads ≠ 4 then throw .padding
  match values with
  | [a, b] =>
    if b % 16 ≠ 0 then throw (.lastSymbol last (offset + 1))
    pure ((bytes a b 0 0).take 1)
  | [a, b, c] =>
    if c % 4 ≠ 0 then throw (.lastSymbol last (offset + 2))
    pure ((bytes a b c 0).take 2)
  | [a, b, c, d] => pure (bytes a b c d)
  | _ => throw .padding

/-- The bytes of groups of four, the last one alone padded. -/
def decodeGroups (offset : Nat) : List UInt8 → Except Fault (List UInt8)
  | a :: b :: c :: d :: next :: rest => do
    let w ← valueAt a offset
    let x ← valueAt b (offset + 1)
    let y ← valueAt c (offset + 2)
    let z ← valueAt d (offset + 3)
    let decoded ← decodeGroups (offset + 4) (next :: rest)
    pure (bytes w x y z ++ decoded)
  | [] => .ok []
  | group => decodeLast offset group

/-- The stray byte at the end of a text one longer than whole groups, if it is neither symbol nor padding:
it is reported before all else. -/
def strayLast? (text : List UInt8) : Option Fault := do
  let last ← text.getLast?
  if text.length % 4 = 1 ∧ last ≠ pad ∧ value? last = none then some (.symbol last (text.length - 1))
  else none

def decode (text : List UInt8) : Except Fault (List UInt8) :=
  match strayLast? text with
  | some fault => .error fault
  | none => decodeGroups 0 text

end KeyedRecords.Base64
