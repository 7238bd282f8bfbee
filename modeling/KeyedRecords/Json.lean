import KeyedRecords.Assoc
import KeyedRecords.Number.Basic

/-! The dynamic values that records are made of. A map keeps its entries sorted by name, in code point order. -/

namespace KeyedRecords

/-- The words in which errors speak of the kind of a value. -/
inductive Kind where
  | null
  | boolean
  | number
  | string
  | timestamp
  | list
  | map
  deriving DecidableEq, Repr

def Kind.name : Kind → String
  | null => "null"
  | boolean => "boolean"
  | number => "number"
  | string => "string"
  | timestamp => "timestamp"
  | list => "list"
  | map => "map"

inductive Json where
  | null
  | boolean (value : Bool)
  | number (value : Number)
  | string (text : String)
  | list (elements : List Json)
  | map (entries : List (String × Json))
  deriving Inhabited

namespace Json

abbrev Map := List (String × Json)

def kind : Json → Kind
  | null => .null
  | boolean _ => .boolean
  | number _ => .number
  | string _ => .string
  | list _ => .list
  | map _ => .map

def isNull : Json → Bool
  | null => true
  | _ => false

def asMap? : Json → Option Map
  | map entries => some entries
  | _ => none

theorem asMap?_eq_some_iff {json : Json} {entries : Map} : json.asMap? = some entries ↔ json = map entries := by
  cases json <;> simp [asMap?]

def asList? : Json → Option (List Json)
  | list elements => some elements
  | _ => none

def asString? : Json → Option String
  | string text => some text
  | _ => none

mutual

def decEq : (a b : Json) → Decidable (a = b)
  | null, null => isTrue rfl
  | boolean a, boolean b =>
    if h : a = b then isTrue (congrArg boolean h) else isFalse fun e => h (boolean.inj e)
  | number a, number b =>
    if h : a = b then isTrue (congrArg number h) else isFalse fun e => h (number.inj e)
  | string a, string b =>
    if h : a = b then isTrue (congrArg string h) else isFalse fun e => h (string.inj e)
  | list a, list b =>
    match decEqList a b with
    | isTrue h => isTrue (congrArg list h)
    | isFalse h => isFalse fun e => h (list.inj e)
  | map a, map b =>
    match decEqMap a b with
    | isTrue h => isTrue (congrArg map h)
    | isFalse h => isFalse fun e => h (map.inj e)
  | null, boolean _ | null, number _ | null, string _ | null, list _ | null, map _
  | boolean _, null | boolean _, number _ | boolean _, string _ | boolean _, list _ | boolean _, map _
  | number _, null | number _, boolean _ | number _, string _ | number _, list _ | number _, map _
  | string _, null | string _, boolean _ | string _, number _ | string _, list _ | string _, map _
  | list _, null | list _, boolean _ | list _, number _ | list _, string _ | list _, map _
  | map _, null | map _, boolean _ | map _, number _ | map _, string _ | map _, list _ =>
    isFalse fun e => by cases e

def decEqList : (a b : List Json) → Decidable (a = b)
  | [], [] => isTrue rfl
  | [], _ :: _ | _ :: _, [] => isFalse fun e => by cases e
  | x :: xs, y :: ys =>
    match decEq x y, decEqList xs ys with
    | isTrue h, isTrue hs => isTrue (by rw [h, hs])
    | isFalse h, _ => isFalse fun e => h (List.cons.inj e).1
    | _, isFalse hs => isFalse fun e => hs (List.cons.inj e).2

def decEqMap : (a b : List (String × Json)) → Decidable (a = b)
  | [], [] => isTrue rfl
  | [], _ :: _ | _ :: _, [] => isFalse fun e => by cases e
  | (k, x) :: xs, (l, y) :: ys =>
    if hk : k = l then
      match decEq x y, decEqMap xs ys with
      | isTrue h, isTrue hs => isTrue (by rw [hk, h, hs])
      | isFalse h, _ => isFalse fun e => h (Prod.mk.inj (List.cons.inj e).1).2
      | _, isFalse hs => isFalse fun e => hs (List.cons.inj e).2
    else isFalse fun e => hk (Prod.mk.inj (List.cons.inj e).1).1

end

instance : DecidableEq Json := decEq

end Json

end KeyedRecords
