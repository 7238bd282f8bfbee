import KeyedRecords.Query.Basic
import KeyedRecords.Update.Basic

/-! The five requests that a store answers. Each is a single exchange, and each can fail. -/

namespace KeyedRecords

/-- What a write requires of the item it goes to. -/
inductive Precondition where
  | absent
  | present
  deriving DecidableEq, Repr

structure Page where
  items : List Item
  /-- The key to go on from, unless the query is exhausted. -/
  lastKey? : Option Item
  deriving DecidableEq

inductive Call where
  | getItem (layout : TableLayout) (key : Key)
  | putItem (layout : TableLayout) (item : Item) (condition? : Option Precondition)
  | updateItem (layout : TableLayout) (key : Key) (update : Update) (condition? : Option Precondition)
  | query (query : BoundQuery)
  | deleteItem (layout : TableLayout) (key : Key)

namespace Call

inductive Kind where
  | getItem
  | putItem
  | updateItem
  | query
  | deleteItem
  deriving DecidableEq, Repr

def kind : Call → Kind
  | getItem .. => .getItem
  | putItem .. => .putItem
  | updateItem .. => .updateItem
  | query _ => .query
  | deleteItem .. => .deleteItem

/-- What a call brings when it succeeds: the item read, the item as updated, a page, or the item that was
deleted. -/
abbrev Answer : Call → Type
  | getItem .. => Option Item
  | putItem .. => Unit
  | updateItem .. => Item
  | query _ => Page
  | deleteItem .. => Option Item

abbrev Reply (call : Call) : Type := Except StoreError call.Answer

end Call

end KeyedRecords
