import KeyedRecords.Proofs.Store.Asking
import KeyedRecords.Proofs.Update.Keys
import KeyedRecords.Records.Listing

/-! The commands that records and tables offer, and clients that perform them one after another, each chosen by
the results so far. What the calls of the commands keep holds of every store that such clients come to,
however they take turns. Main statements: `Records.Offers.asks`, `Table.Offers.asks`,
`Memory.ReachedBy.invariant`. -/

namespace KeyedRecords

/-- A bound query is one of the table that it was bound to, and asks for the same. -/
theorem Query.of_bind {query : Query} {layout : TableLayout} {bound : BoundQuery}
    (h : query.bind layout = .ok bound) :
    query.partition? = some bound.partition ∧ bound.layout = layout ∧ bound.projection = query.projection := by
  unfold bind at h
  split at h
  · cases h
  · rename_i partition hpartition
    cases h
    exact ⟨hpartition, rfl, rfl⟩

theorem Query.bind_layout {query : Query} {layout : TableLayout} {bound : BoundQuery}
    (h : query.bind layout = .ok bound) : bound.layout = layout := (of_bind h).2.1

/-! ## Records -/

namespace Records

variable {ρ : Type} (records : Records ρ)

/-- The commands on the records of a model. -/
inductive Offers : {α : Type} → Command α → Prop
  | create (fields : Arguments) : Offers (records.create fields)
  | createRecord (record : ρ) : Offers (records.createRecord record)
  | get (args : Arguments) : Offers (records.get args)
  | update (args : Arguments) : Offers (records.update args)
  | save (record : ρ) : Offers (records.save record)
  | delete (args : Arguments) : Offers (records.delete args)
  | remove (record : ρ) : Offers (records.remove record)
  | page (filters : Arguments) (cursor? : Option Cursor) (limit : Nat) :
      Offers (records.page filters cursor? limit)
  | stream {query : Query} {keep : ρ → Bool} {listing : Listing ρ}
      (h : records.listQuery query keep = .ok listing) (count? : Option Nat) : Offers (listing.stream count?)
  | collect {query : Query} {keep : ρ → Bool} {listing : Listing ρ}
      (h : records.listQuery query keep = .ok listing) : Offers listing.collect
  | deleteAll (filters : Arguments) : Offers (records.deleteAll filters)

/-- Whether the calls of all commands that write no item are of a kind. -/
structure PlainCalls (P : Call → Prop) : Prop where
  getItem : ∀ key, P (.getItem records.model.layout key)
  query : ∀ query : BoundQuery, query.layout = records.model.layout → P (.query query)
  deleteItem : ∀ key, P (.deleteItem records.model.layout key)

/-- Whether the calls of all commands but those that save are of a kind. -/
structure GuardedCalls (P : Call → Prop) : Prop extends records.PlainCalls P where
  /-- The item of a new record. -/
  created : ∀ {fields key data}, records.encode fields = .ok (key, data) → ∀ time,
    P (.putItem records.model.layout (records.model.layout.newItem key data time) (some .absent))
  updated : ∀ {args written}, records.model.schema.encodePartial records.model.name (changes args) =
    .ok written → ∀ key time, P (.updateItem records.model.layout key
      (Update.set (updateItem records.model.layout written time)) (some .present))

/-- Whether the calls that these commands make are of a kind. -/
structure Calls (P : Call → Prop) : Prop extends records.GuardedCalls P where
  /-- The item of a record that is saved. -/
  saved : ∀ {fields key data}, records.encode fields = .ok (key, data) → ∀ time,
    P (.putItem records.model.layout
      (Assoc.insert (records.model.layout.newItem key data time) updatedName (.string time)) none)

variable {records}

theorem pageQuery_layout {filters : Arguments} {cursor? : Option Cursor} {limit : Nat} {bound : BoundQuery}
    (h : records.pageQuery filters cursor? limit = .ok bound) : bound.layout = records.model.layout := by
  obtain ⟨query, -, h⟩ := bind_eq_ok.1 h
  cases cursor? with
  | none => exact Query.bind_layout h
  | some cursor =>
    obtain ⟨start, -, h⟩ := bind_eq_ok.1 h
    exact Query.bind_layout h

def createShaped (records : Records ρ) (fields : Arguments) : Command ρ := do
  let (key, data) ← records.encode fields
  let time ← Command.now
  let item := records.model.layout.newItem key data time
  match ← Command.attempt (.putItem records.model.layout item (some .absent)) with
  | .ok () => records.read item
  | .error (.conditionFailed _) => throw (.duplicateRecord records.model.name key)
  | .error e => throw (.store e)

theorem create_eq (records : Records ρ) (fields : Arguments) : records.create fields = (do
    let fields ← identified fields
    records.createShaped (Assoc.ofList (records.shape fields))) := by
  simp only [create, createShaped]
  refine bind_congr fun fields => bind_congr fun pair => bind_congr fun time => bind_congr fun reply => ?_
  cases reply with
  | ok _ => rfl
  | error e => cases e <;> rfl

section Asks

open Command

variable {P : Call → Prop}

theorem identified_asks (fields : Arguments) : Asks P (identified fields) := by
  unfold identified
  split
  · exact asks_pure _
  · exact asks_newIdentifier.bind fun _ => asks_pure _

/-! Of a command on one record it is enough to know the call that it reads or writes with. -/

theorem get_asks_of {args : Arguments}
    (hget : ∀ {key}, records.model.keys.key args = .ok key → P (.getItem records.model.layout key)) :
    Asks P (records.get args) :=
  asks_result_bind fun key hkey => (asks_ask (hget hkey)).bind fun item? => by
    cases item? with
    | none => exact asks_throw _
    | some item => exact asks_result _

theorem deleteKey_asks_of {key : Key} (hdelete : P (.deleteItem records.model.layout key)) :
    Asks P (records.deleteKey key) :=
  (asks_ask hdelete).bind fun _ => asks_pure _

theorem delete_asks_of {args : Arguments}
    (hdelete : ∀ {key}, records.model.keys.key args = .ok key → P (.deleteItem records.model.layout key)) :
    Asks P (records.delete args) :=
  asks_result_bind fun _ hkey => (deleteKey_asks_of (hdelete hkey)).bind fun _ => asks_pure _

theorem remove_asks_of {record : ρ} (hdelete : ∀ {args key}, records.model.keys.key args = .ok key →
    P (.deleteItem records.model.layout key)) : Asks P (records.remove record) :=
  asks_result_bind fun _ _ => (delete_asks_of hdelete).bind fun _ => asks_pure _

theorem createShaped_asks {fields : Arguments}
    (hput : ∀ {key data}, records.encode fields = .ok (key, data) → ∀ time, P (.putItem records.model.layout
      (records.model.layout.newItem key data time) (some .absent))) : Asks P (records.createShaped fields) := by
  refine asks_result_bind fun pair hencode => ?_
  obtain ⟨key, data⟩ := pair
  refine asks_now.bind fun time => (asks_attempt (hput hencode time)).bind fun reply => ?_
  cases reply with
  | ok _ => exact asks_result _
  | error e => cases e <;> exact asks_throw _

theorem create_asks_of {fields : Arguments}
    (hput : ∀ {fields key data}, records.encode fields = .ok (key, data) → ∀ time, P (.putItem records.model.layout
      (records.model.layout.newItem key data time) (some .absent))) : Asks P (records.create fields) := by
  rw [create_eq]
  exact (identified_asks fields).bind fun _ => createShaped_asks hput

theorem createRecord_asks_of {record : ρ}
    (hput : ∀ {fields key data}, records.encode fields = .ok (key, data) → ∀ time, P (.putItem records.model.layout
      (records.model.layout.newItem key data time) (some .absent))) : Asks P (records.createRecord record) :=
  asks_result_bind fun _ _ => create_asks_of hput

theorem update_asks_of {args : Arguments} (hupdate : ∀ {key written}, records.model.keys.key args = .ok key →
      records.model.schema.encodePartial records.model.name (changes args) = .ok written → ∀ time,
        P (.updateItem records.model.layout key (Update.set (updateItem records.model.layout written time))
          (some .present))) : Asks P (records.update args) := by
  refine asks_result_bind fun key hkey => asks_result_bind fun written hwritten => asks_now.bind fun time => ?_
  refine (asks_attempt (hupdate hkey hwritten time)).bind fun reply => ?_
  cases reply with
  | ok item => exact asks_result _
  | error e => cases e <;> exact asks_throw _

theorem save_asks_of {record : ρ} {id : String} (hid : records.form.id? record = some id)
    (hput : ∀ {fields key data}, records.fieldsOf record = .ok fields →
      records.encode fields = .ok (key, data) → ∀ time, P (.putItem records.model.layout
        (Assoc.insert (records.model.layout.newItem key data time) updatedName (.string time)) none)) :
    Asks P (records.save record) := by
  simp only [save, hid]
  refine asks_result_bind fun fields hfields => asks_result_bind fun pair hencode => ?_
  obtain ⟨key, data⟩ := pair
  exact asks_now.bind fun time => (asks_ask (hput hfields hencode time)).bind fun _ => asks_pure _

/-! A command on many records asks for pages of its query and deletes at the keys that it reads there. -/

theorem page_asks_of {filters : Arguments} {cursor? : Option Cursor} {limit : Nat}
    (hquery : ∀ {bound}, records.pageQuery filters cursor? limit = .ok bound → P (.query bound)) :
    Asks P (records.page filters cursor? limit) :=
  asks_result_bind fun _ hbound => (asks_ask (hquery hbound)).bind fun _ =>
    asks_result_bind fun _ _ => asks_pure _

theorem stream_asks_of {listing : Listing ρ}
    (hquery : ∀ startKey?, P (.query { listing.query with startKey? := startKey? })) (count? : Option Nat) :
    Asks P (listing.stream count?) := by
  simp only [Listing.stream]
  split
  · exact (asks_readPages hquery _).bind fun _ => asks_pure _
  · exact asks_pure _

theorem collect_asks_of {listing : Listing ρ}
    (hquery : ∀ startKey?, P (.query { listing.query with startKey? := startKey? })) : Asks P listing.collect := by
  refine (asks_readPages hquery _).bind fun read => asks_result_bind fun found _ => ?_
  cases read.2 with
  | none => exact asks_pure _
  | some e => exact asks_throw _

theorem deleteKeys_asks_of {keys : List Key} (hdelete : ∀ key ∈ keys, P (.deleteItem records.model.layout key)) :
    Asks P (records.deleteKeys keys) := by
  induction keys with
  | nil => exact asks_pure _
  | cons key rest ih =>
    obtain ⟨hkey, hrest⟩ := List.forall_mem_cons.1 hdelete
    exact (deleteKey_asks_of hkey).bind fun _ => (ih hrest).bind fun _ => asks_pure _

section Plain

variable (h : records.PlainCalls P)

include h

theorem get_asks (args : Arguments) : Asks P (records.get args) := get_asks_of fun _ => h.getItem _

theorem delete_asks (args : Arguments) : Asks P (records.delete args) := delete_asks_of fun _ => h.deleteItem _

theorem remove_asks (record : ρ) : Asks P (records.remove record) := remove_asks_of fun _ => h.deleteItem _

theorem page_asks (filters : Arguments) (cursor? : Option Cursor) (limit : Nat) :
    Asks P (records.page filters cursor? limit) :=
  page_asks_of fun hbound => h.query _ (pageQuery_layout hbound)

theorem query_from {query : BoundQuery} (hlayout : query.layout = records.model.layout) (startKey? : Option Item) :
    P (.query { query with startKey? := startKey? }) :=
  h.query { query with startKey? := startKey? } hlayout

theorem stream_asks {listing : Listing ρ} (hlayout : listing.query.layout = records.model.layout)
    (count? : Option Nat) : Asks P (listing.stream count?) := stream_asks_of (query_from h hlayout) count?

theorem collect_asks {listing : Listing ρ} (hlayout : listing.query.layout = records.model.layout) :
    Asks P listing.collect := collect_asks_of (query_from h hlayout)

theorem deleteAll_asks (filters : Arguments) : Asks P (records.deleteAll filters) := by
  refine asks_result_bind fun query _ => asks_result_bind fun bound hbound => ?_
  refine (asks_readPages (query_from h (Query.bind_layout hbound)) _).bind fun read => ?_
  obtain ⟨items, failure?⟩ := read
  cases failure? with
  | some e => exact asks_throw _
  | none => exact deleteKeys_asks_of fun key _ => h.deleteItem key

end Plain

section Guarded

variable (h : records.GuardedCalls P)

include h

theorem create_asks (fields : Arguments) : Asks P (records.create fields) := create_asks_of h.created

theorem createRecord_asks (record : ρ) : Asks P (records.createRecord record) := createRecord_asks_of h.created

theorem update_asks (args : Arguments) : Asks P (records.update args) :=
  update_asks_of fun _ hwritten time => h.updated hwritten _ time

end Guarded

theorem save_asks (h : records.Calls P) (record : ρ) : Asks P (records.save record) := by
  cases hid : records.form.id? record with
  | none =>
    simp only [save, hid]
    exact createRecord_asks h.toGuardedCalls record
  | some id => exact save_asks_of hid fun _ hencode time => h.saved hencode time

theorem Offers.asks (h : records.Calls P) {α : Type} {command : Command α} (hoffers : records.Offers command) :
    Asks P command := by
  have hguarded := h.toGuardedCalls
  have hplain := hguarded.toPlainCalls
  have hlisted : ∀ {query : Query} {keep : ρ → Bool} {listing : Listing ρ},
      records.listQuery query keep = .ok listing → listing.query.layout = records.model.layout := by
    intro query keep listing hlist
    obtain ⟨bound, hbound, hlist⟩ := bind_eq_ok.1 hlist
    cases hlist
    exact Query.bind_layout hbound
  cases hoffers with
  | create fields => exact create_asks hguarded fields
  | createRecord record => exact createRecord_asks hguarded record
  | get args => exact get_asks hplain args
  | update args => exact update_asks hguarded args
  | save record => exact save_asks h record
  | delete args => exact delete_asks hplain args
  | remove record => exact remove_asks hplain record
  | page filters cursor? limit => exact page_asks hplain filters cursor? limit
  | stream hlist count? => exact stream_asks hplain (hlisted hlist) count?
  | collect hlist => exact collect_asks hplain (hlisted hlist)
  | deleteAll filters => exact deleteAll_asks hplain filters

end Asks

end Records

/-! ## Tables -/

namespace Table

variable (table : Table)

/-- The commands on the items of a table. -/
inductive Offers : {α : Type} → Command α → Prop
  | put (key : Key) (data : Json.Map) : Offers (table.put key data)
  | get (key : Key) : Offers (table.get key)
  | update (key : Key) (data : Json.Map) : Offers (table.update key data)
  | increment (key : Key) (counters : Json.Map) : Offers (table.increment key counters)
  | accumulate (key : Key) (counters : Json.Map) (path? : Option String) :
      Offers (table.accumulate key counters path?)
  | query (query : Query) : Offers (table.query query)
  | queryAll (query : Query) (count? : Option Nat) : Offers (table.queryAll query count?)
  | delete (key : Key) : Offers (table.delete key)

/-- Whether the calls that these commands make are of a kind. -/
structure Calls (P : Call → Prop) : Prop where
  getItem : ∀ key, P (.getItem table.layout key)
  query : ∀ query : BoundQuery, query.layout = table.layout → P (.query query)
  deleteItem : ∀ key, P (.deleteItem table.layout key)
  put : ∀ key data time,
    P (.putItem table.layout (table.layout.newItem key (Attribute.ofJsonMap data) time) none)
  updated : ∀ key data time, P (.updateItem table.layout key (Update.set (updateItem table.layout data time)) none)
  added : ∀ key counters, P (.updateItem table.layout key
    (Update.add [(table.layout.dataName, Attribute.map (Attribute.ofJsonMap counters))]) none)

section Asks

open Command

variable {table} {P : Call → Prop} (h : table.Calls P)

include h

theorem put_asks (key : Key) (data : Json.Map) : Asks P (table.put key data) :=
  asks_now.bind fun time => (asks_ask (h.put key _ time)).bind fun _ => asks_result _

theorem get_asks (key : Key) : Asks P (table.get key) :=
  (asks_ask (h.getItem key)).bind fun _ => asks_result _

theorem update_asks (key : Key) (data : Json.Map) : Asks P (table.update key data) :=
  asks_now.bind fun time => (asks_ask (h.updated key data time)).bind fun _ => asks_result _

theorem increment_asks (key : Key) (counters : Json.Map) : Asks P (table.increment key counters) := by
  simp only [increment]
  by_cases hempty : List.isEmpty counters = true
  · rw [if_pos hempty]
    exact asks_throw _
  · rw [if_neg hempty]
    split
    · exact asks_throw _
    · exact (asks_ask (h.added key counters)).bind fun _ => asks_result _

theorem accumulate_asks (key : Key) (counters : Json.Map) (path? : Option String) :
    Asks P (table.accumulate key counters path?) := by
  refine (asks_ask (h.getItem key)).bind fun item? => ?_
  cases item? with
  | none => exact asks_now.bind fun time => (put_asks h key _).bind fun _ => asks_pure _
  | some item =>
    refine asks_result_bind fun stored _ => asks_result_bind fun merged _ => ?_
    exact (update_asks h key merged).bind fun _ => asks_pure _

theorem query_asks (query : Query) : Asks P (table.query query) := by
  refine asks_result_bind fun bound hbound => ?_
  refine (asks_ask (h.query bound (Query.bind_layout hbound))).bind fun page => ?_
  exact asks_result_bind fun _ _ => asks_pure _

theorem queryAll_asks (query : Query) (count? : Option Nat) : Asks P (table.queryAll query count?) := by
  refine asks_result_bind fun bound hbound => ?_
  dsimp only
  split
  · refine (asks_readPages (fun startKey? => ?_) _).bind fun _ => asks_pure _
    have hlayout := Query.bind_layout hbound
    exact h.query { bound with startKey? := startKey? } hlayout
  · exact asks_pure _

theorem delete_asks (key : Key) : Asks P (table.delete key) :=
  (asks_ask (h.deleteItem key)).bind fun _ => asks_result _

theorem Offers.asks {α : Type} {command : Command α} (hoffers : table.Offers command) : Asks P command := by
  cases hoffers with
  | put key data => exact put_asks h key data
  | get key => exact get_asks h key
  | update key data => exact update_asks h key data
  | increment key counters => exact increment_asks h key counters
  | accumulate key counters path? => exact accumulate_asks h key counters path?
  | query query => exact query_asks h query
  | queryAll query count? => exact queryAll_asks h query count?
  | delete key => exact delete_asks h key

end Asks

end Table

/-! ## Clients -/

/-- The programs of clients that perform commands of a kind one after another, each chosen by the results so
far. -/
inductive Program.MadeOf (offers : {α : Type} → Command α → Prop) : Program Unit → Prop
  | done : MadeOf @offers (.done ())
  | next {α : Type} {command : Command α} {rest : Result α → Program Unit} (h : offers command)
      (hrest : ∀ result, MadeOf @offers (rest result)) : MadeOf @offers (command.run.bind rest)

theorem Program.MadeOf.asks {offers : {α : Type} → Command α → Prop} {P : Call → Prop}
    (hoffers : ∀ {α : Type} {command : Command α}, offers command → command.Asks P) {p : Program Unit}
    (h : Program.MadeOf offers p) : p.Asks P := by
  induction h with
  | done => trivial
  | next hcommand _ ih => exact Program.Asks.bind (hoffers hcommand) ih

/-- The commands that records of a model offer, shaped in any way. -/
def Model.Offers (model : Model) {α : Type} (command : Command α) : Prop :=
  ∃ (ρ : Type) (records : Records ρ), records.model = model ∧ records.Offers command

/-- The commands that are offered under a table layout, by tables and by records of any model. -/
def TableLayout.Offers (layout : TableLayout) {α : Type} (command : Command α) : Prop :=
  (∃ (ρ : Type) (records : Records ρ), records.model.layout = layout ∧ records.Offers command) ∨
    ∃ table : Table, table.layout = layout ∧ table.Offers command

namespace Memory

/-- The stores that clients with commands of a kind come to from an empty one, by any turns. -/
def ReachedBy (offers : {α : Type} → Command α → Prop) (memory : Memory) : Prop :=
  ∃ (ε : Type) (environment : Environment ε) (e : ε) (clients : List (Program Unit)) (turns : List Nat),
    (∀ client ∈ clients, Program.MadeOf offers client) ∧
      (environment.host.interleave turns clients ({}, e)).2.1 = memory

/-- What holds of an empty store and is kept by every call that the clients make holds of the stores that they
come to. -/
theorem ReachedBy.invariant {offers : {α : Type} → Command α → Prop} {I : Memory → Prop} {P : Call → Prop}
    (hempty : I {}) (hcall : ∀ call memory, P call → I memory → I (memory.answer call).2)
    (hoffers : ∀ {α : Type} {command : Command α}, offers command → command.Asks P) {memory : Memory}
    (h : memory.ReachedBy offers) : I memory := by
  obtain ⟨ε, environment, e, clients, turns, hclients, rfl⟩ := h
  refine (environment.host.interleave_asks (P := P) (I := fun state => I state.1) ?_ ?_ ?_ turns ?_ hempty).2
  · exact fun call state => hcall call state.1
  · exact fun _ hstate => hstate
  · exact fun _ hstate => hstate
  · exact fun client hclient => Program.MadeOf.asks hoffers (hclients client hclient)

end Memory

end KeyedRecords
