import KeyedRecords.Cursor
import KeyedRecords.Records.Basic

/-! Commands on all records that filters or a query select. A listing reads its pages as its reader asks for more, and
a cursor leads from one page to the next. -/

namespace KeyedRecords

/-- One page of records, and the cursor to go on from unless it is the last. -/
structure RecordPage (ρ : Type) where
  records : List ρ
  cursor? : Option Cursor

def RecordPage.hasMore {ρ : Type} (page : RecordPage ρ) : Bool := page.cursor?.isSome

/-- The records that a query selects and a test keeps. -/
structure Listing (ρ : Type) where
  records : Records ρ
  query : BoundQuery
  keep : ρ → Bool := fun _ => true

namespace Listing

variable {ρ : Type}

/-- What is listed of some items: the records kept, and the failure of each item that holds none. -/
def outcomes (listing : Listing ρ) (items : List Item) : List (Result ρ) :=
  (items.map listing.records.read).filter fun
    | .ok record => listing.keep record
    | .error _ => true

/-- All records listed; fails with the first item that holds none, or else with the store. -/
def collect (listing : Listing ρ) : Command (List ρ) := do
  let all (items : List Item) : Result (List ρ) := (listing.outcomes items).mapM id
  let (items, failure?) ← Command.readPages listing.query fun seen => (all seen).isOk
  let records ← all items
  match failure? with
  | none => pure records
  | some e => throw (.store e)

/-- What is listed one by one, at most so many if a count is given. A failure of the store comes last. -/
def stream (listing : Listing ρ) (count? : Option Nat) : Command (List (Result ρ)) := do
  let wantsMore (items : List Item) : Bool := count?.all ((listing.outcomes items).length < ·)
  if wantsMore [] then
    let (items, failure?) ← Command.readPages listing.query wantsMore
    let read := listing.outcomes items ++ (failure?.map fun e => .error (.store e)).toList
    pure (count?.elim read read.take)
  else pure []

end Listing

namespace Records

variable {ρ : Type}

/-- The query that filters select records by. Without any, the start that the model sets for listings
counts as the condition on the sort key. -/
def queryFor (records : Records ρ) (filters : Arguments) : Result Query := do
  let query ← records.model.filterRules.toQuery filters
  match records.model.listingStart? with
  | some start =>
    if filters.isEmpty then pure { query with sort? := some (.startingWith start) } else pure query
  | none => pure query

def listQuery (records : Records ρ) (query : Query) (keep : ρ → Bool := fun _ => true) :
    Result (Listing ρ) := do
  pure ⟨records, ← query.bind records.model.layout, keep⟩

def list (records : Records ρ) (filters : Arguments) (keep : ρ → Bool := fun _ => true) :
    Result (Listing ρ) := do
  records.listQuery (← records.queryFor filters) keep

def pageQuery (records : Records ρ) (filters : Arguments) (cursor? : Option Cursor) (limit : Nat) :
    Result BoundQuery := do
  let query := (← records.queryFor filters).withLimit limit
  let query ← match cursor? with
    | some cursor => do pure { query with startAfter? := some (← cursor.decode) }
    | none => pure query
  query.bind records.model.layout

def page (records : Records ρ) (filters : Arguments) (cursor? : Option Cursor) (limit : Nat) :
    Command (RecordPage ρ) := do
  let query ← records.pageQuery filters cursor? limit
  let page ← Command.ask (.query query)
  let read ← (page.items.mapM records.read : Result (List ρ))
  pure ⟨read, (page.lastKey?.bind records.model.layout.keyOf?).map Cursor.encode⟩

def deleteKeys (records : Records ρ) : List Key → Command Nat
  | [] => pure 0
  | key :: rest => do
    let deleted ← records.deleteKey key
    let more ← deleteKeys records rest
    pure (deleted.toNat + more)

/-- Deletes all records that filters select; how many there were. All keys are read before the first
deletion. -/
def deleteAll (records : Records ρ) (filters : Arguments) : Command Nat := do
  let query ← (← records.queryFor filters).bind records.model.layout
  let (items, failure?) ← Command.readPages query fun _ => true
  match failure? with
  | some e => throw (.store e)
  | none => records.deleteKeys (items.filterMap records.model.layout.keyOf?)

end Records

end KeyedRecords
