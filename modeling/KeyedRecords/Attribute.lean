import KeyedRecords.Error
import KeyedRecords.Number.Reader

/-! The values that a store holds. A number is kept as the text it was written with, so storing a JSON value and
reading it back loses nothing. -/

namespace KeyedRecords

inductive Attribute where
  | string (text : String)
  | number (text : String)
  | boolean (value : Bool)
  | null
  | list (elements : List Attribute)
  | map (entries : List (String × Attribute))
  deriving Inhabited

/-- A stored item: attributes by name, sorted. -/
abbrev Item := List (String × Attribute)

namespace Attribute

def kind : Attribute → Kind
  | string _ => .string
  | number _ => .number
  | boolean _ => .boolean
  | null => .null
  | list _ => .list
  | map _ => .map

def asString? : Attribute → Option String
  | string text => some text
  | _ => none

def asMap? : Attribute → Option Item
  | map entries => some entries
  | _ => none

mutual

/-- A JSON value as it is stored when nothing is declared about it. -/
def ofJson : Json → Attribute
  | .null => null
  | .boolean value => boolean value
  | .number value => number value.text
  | .string text => string text
  | .list elements => list (ofJsonList elements)
  | .map entries => map (ofJsonMap entries)

def ofJsonList : List Json → List Attribute
  | [] => []
  | value :: rest => ofJson value :: ofJsonList rest

def ofJsonMap : List (String × Json) → Item
  | [] => []
  | (name, value) :: rest => (name, ofJson value) :: ofJsonMap rest

end

def readNumber (text : String) : Result Number :=
  match Number.ofText? text with
  | some n => .ok n
  | none => .error (.invalidValue (.notANumber text))

mutual

/-- The JSON value of an attribute; fails on the first number text that is none. -/
def toJson : Attribute → Result Json
  | null => pure .null
  | boolean value => pure (.boolean value)
  | number text => do pure (.number (← readNumber text))
  | string text => pure (.string text)
  | list elements => do pure (.list (← toJsonList elements))
  | map entries => do pure (.map (← toJsonMap entries))

def toJsonList : List Attribute → Result (List Json)
  | [] => pure []
  | value :: rest => do
    let head ← toJson value
    pure (head :: (← toJsonList rest))

def toJsonMap : Item → Result Json.Map
  | [] => pure []
  | (name, value) :: rest => do
    let head ← toJson value
    pure ((name, head) :: (← toJsonMap rest))

end

mutual

def decEq : (a b : Attribute) → Decidable (a = b)
  | string a, string b =>
    if h : a = b then isTrue (congrArg string h) else isFalse fun e => h (string.inj e)
  | number a, number b =>
    if h : a = b then isTrue (congrArg number h) else isFalse fun e => h (number.inj e)
  | boolean a, boolean b =>
    if h : a = b then isTrue (congrArg boolean h) else isFalse fun e => h (boolean.inj e)
  | null, null => isTrue rfl
  | list a, list b =>
    match decEqList a b with
    | isTrue h => isTrue (congrArg list h)
    | isFalse h => isFalse fun e => h (list.inj e)
  | map a, map b =>
    match decEqMap a b with
    | isTrue h => isTrue (congrArg map h)
    | isFalse h => isFalse fun e => h (map.inj e)
  | null, boolean _ | null, number _ | null, string _ | null, list _ | null, map _
  | boolean _, null | boolean _, number _ | boolean _, string _ | boolean _, list _ | boolean _, map _
  | number _, null | number _, boolean _ | number _, string _ | number _, list _ | number _, map _
  | string _, null | string _, boolean _ | string _, number _ | string _, list _ | string _, map _
  | list _, null | list _, boolean _ | list _, number _ | list _, string _ | list _, map _
  | map _, null | map _, boolean _ | map _, number _ | map _, string _ | map _, list _ =>
    isFalse fun e => by cases e

def decEqList : (a b : List Attribute) → Decidable (a = b)
  | [], [] => isTrue rfl
  | [], _ :: _ | _ :: _, [] => isFalse fun e => by cases e
  | x :: xs, y :: ys =>
    match decEq x y, decEqList xs ys with
    | isTrue h, isTrue hs => isTrue (by rw [h, hs])
    | isFalse h, _ => isFalse fun e => h (List.cons.inj e).1
    | _, isFalse hs => isFalse fun e => hs (List.cons.inj e).2

def decEqMap : (a b : Item) → Decidable (a = b)
  | [], [] => isTrue rfl
  | [], _ :: _ | _ :: _, [] => isFalse fun e => by cases e
  | (k, x) :: xs, (l, y) :: ys =>
    if hk : k = l then
      match decEq x y, decEqMap xs ys with
      | isTrue h, isTrue hs => isTrue (by rw [hk, h, hs])
      | isFalse h, _ => isFalse fun e => h (Prod.mk.inj (List.cons.inj e).1).2
      | _, isFalse hs => isFalse fun e => hs (List.cons.inj e).2
    else isFalse fun e => hk (Prod.mk.inj (List.cons.inj e).1).1

end

instance : DecidableEq Attribute := decEq

end Attribute

end KeyedRecords
