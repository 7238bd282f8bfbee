import KeyedRecords.Proofs.Attribute.Readable
import KeyedRecords.Proofs.Layout
import KeyedRecords.Proofs.Store.Answer
import KeyedRecords.Table

/-! What commands that write to a table return, and what is read at the key afterwards. An update brings the item from
the store and a put builds it, and both are what is read next. An accumulation that finds no item answers with the
counters that it was given, but what it puts is shaped first. Main statement: `returned_iff_verbatim`. -/

namespace KeyedRecords

namespace TableLayout

variable {layout : TableLayout}

/-- A new item that carries a key carries the one that it was made with. -/
theorem eq_of_keyOf?_newItem (hkeys : layout.partitionName ≠ layout.sortName)
    (hcreated : layout.partitionName ≠ createdName ∧ layout.sortName ≠ createdName) {key own : Key} {data : Item}
    {time : String} (h : layout.keyOf? (layout.newItem key data time) = some own) : own = key := by
  obtain ⟨hpartition, hsort⟩ := keyOf?_eq_some_iff.1 h
  have hown : layout.keyOf? (layout.keyItem key) = some own :=
    keyOf?_eq_some_iff.2 ⟨find?_newItem_text hcreated.1 hpartition, find?_newItem_text hcreated.2 hsort⟩
  exact Option.some.inj (hown.symm.trans (keyOf?_keyItem hkeys key))

end TableLayout

namespace Table

/-- The commands that write to the item at a key and return it, or its data. -/
inductive Write where
  | put (data : Json.Map)
  | update (data : Json.Map)
  | increment (counters : Json.Map)
  | accumulate (counters : Json.Map) (path? : Option String)

namespace Write

def command (table : Table) (key : Key) : Write → Command Json
  | .put data => table.put key data
  | .update data => table.update key data
  | .increment counters => table.increment key counters
  | .accumulate counters path? => table.accumulate key counters path?

/-- Whether a write puts an item of its own making, given what is at the key. -/
def Puts (item? : Option Item) : Write → Prop
  | .put _ => True
  | .update _ | .increment _ => False
  | .accumulate .. => item? = none

/-- Whether a result is what a write is to return of an item as it is read: all of it, or its data. An item that has
none counts as one with no data fields. -/
def Tells (layout : TableLayout) (item : Json.Map) (result : Json) : Write → Prop
  | .put _ | .update _ | .increment _ => result = .map item
  | .accumulate .. => Assoc.find? item layout.dataName = some result ∨
      Assoc.find? item layout.dataName = none ∧ result = .map []

/-- Whether the counters that an accumulation puts are stored as they are, neither shaped nor in the place of the time.
-/
def Verbatim (table : Table) (item? : Option Item) (time : String) : Write → Prop
  | .put _ | .update _ | .increment _ => True
  | .accumulate counters path? => item? = none → table.layout.dataName ≠ createdName ∧
      Assoc.ofList (table.shape (firstCounters counters path? time)) = firstCounters counters path? time

end Write

/-- Whether the item at a key is read as this JSON. -/
def Shows (table : Table) (memory : Memory) (key : Key) (item : Json.Map) : Prop :=
  ∃ stored, memory.item? table.layout key = some stored ∧ Attribute.toJsonMap stored = .ok item

theorem itemJson_eq_ok {item : Item} {json : Json} (h : itemJson item = .ok json) :
    ∃ read, Attribute.toJsonMap item = .ok read ∧ json = .map read :=
  Attribute.toJson_map_eq_ok.1 h

variable {table : Table} {key : Key} {ε : Type} {environment : Environment ε} {pages : Nat} {memory after : Memory}
  {e e' : ε} {json : Json}

theorem Shows.get {item : Json.Map} (h : table.Shows memory key item) :
    environment.host.command pages (table.get key) (memory, e) =
      some (.ok (some (.map item)), memory.counted .getItem, e) := by
  obtain ⟨stored, hstored, hread⟩ := h
  rw [Table.get, Host.command_ask_bind _ _ (environment.answer_getItem e), hstored]
  have hitem : itemJson stored = .ok (.map item) := Attribute.toJson_map_eq_ok.2 ⟨item, hread, rfl⟩
  rw [Option.mapM_some, hitem]
  rfl

/-- An update without a condition leaves the item that it brings. -/
theorem shows_of_updateItem {change : Update}
    (hrun : environment.host.command pages
      (Command.ask (.updateItem table.layout key change none) >>= fun item => (liftM (itemJson item) : Command Json))
      (memory, e) = some (.ok json, after, e')) :
    ∃ item, json = .map item ∧ table.Shows after key item := by
  obtain ⟨updated, between, hreplies, hrest⟩ := environment.command_ask_bind_inv hrun
  cases hreplies with
  | updated _ happly =>
    obtain ⟨hjson, hafter⟩ := Prod.mk.inj (Option.some.inj hrest)
    cases hafter
    obtain ⟨item, hread, rfl⟩ := itemJson_eq_ok hjson
    exact ⟨item, rfl, updated, Memory.item?_store_self .., hread⟩

theorem update_shows {data : Json.Map}
    (hrun : environment.host.command pages (table.update key data) (memory, e) = some (.ok json, after, e')) :
    ∃ item, json = .map item ∧ table.Shows after key item := by
  rw [Table.update, environment.command_now_bind] at hrun
  exact shows_of_updateItem hrun

theorem increment_shows {counters : Json.Map}
    (hrun : environment.host.command pages (table.increment key counters) (memory, e) =
      some (.ok json, after, e')) : ∃ item, json = .map item ∧ table.Shows after key item := by
  simp only [increment] at hrun
  by_cases hempty : List.isEmpty counters = true
  · rw [if_pos hempty] at hrun
    cases hrun
  · rw [if_neg hempty] at hrun
    split at hrun
    · cases hrun
    · exact shows_of_updateItem hrun

/-- An accumulation at a key that has an item brings the data that its update leaves. -/
theorem accumulate_updates {counters : Json.Map} {path? : Option String} {stored : Item}
    (hitem : memory.item? table.layout key = some stored)
    (hrun : environment.host.command pages (table.accumulate key counters path?) (memory, e) =
      some (.ok json, after, e')) :
    ∃ item, (Assoc.find? item table.layout.dataName = some json ∨
        Assoc.find? item table.layout.dataName = none ∧ json = .map []) ∧ table.Shows after key item := by
  rw [Table.accumulate, Host.command_ask_bind _ _ (environment.answer_getItem e), hitem] at hrun
  obtain ⟨data, -, hrun⟩ := Host.command_result_inv_ok hrun
  obtain ⟨merged, -, hrun⟩ := Host.command_result_inv_ok hrun
  obtain ⟨updated, between, hupdate, hrest⟩ := Host.command_bind_inv_ok hrun
  obtain ⟨item, rfl, hshows⟩ := update_shows hupdate
  cases hrest
  refine ⟨item, ?_, hshows⟩
  simp only [Json.asMap?, Option.getD_some]
  cases Assoc.find? item table.layout.dataName with
  | none => exact Or.inr ⟨rfl, rfl⟩
  | some value => exact Or.inl rfl

/-- The data of a new item are read as they were given to it, unless they have given way to the time. -/
theorem find?_dataName_newItem {data item : Json.Map} {time : String}
    (hread : Attribute.toJsonMap (table.layout.newItem key (Attribute.ofJsonMap data) time) = .ok item) :
    Assoc.find? item table.layout.dataName =
      some (if table.layout.dataName = createdName then .string time else .map data) := by
  have hstored : Assoc.find? (table.layout.newItem key (Attribute.ofJsonMap data) time) table.layout.dataName =
      some (Attribute.ofJson (if table.layout.dataName = createdName then .string time else .map data)) := by
    rw [TableLayout.newItem, Assoc.find?_insert]
    split
    · rfl
    · exact Assoc.find?_insert_self ..
  rcases Attribute.find?_toJsonMap hread table.layout.dataName with ⟨hnone, -⟩ | ⟨value, json, hvalue, hjson, hfound⟩
  · cases hnone.symm.trans hstored
  · cases hvalue.symm.trans hstored
    rw [hfound, ← Except.ok.inj ((Attribute.toJson_ofJson _).symm.trans hjson)]

section KeysApart

variable (hkeys : table.layout.partitionName ≠ table.layout.sortName)
  (hcreated : table.layout.partitionName ≠ createdName ∧ table.layout.sortName ≠ createdName)

include hkeys hcreated

/-- A put that succeeds leaves the item that it has built. -/
theorem put_shows {data : Json.Map}
    (hrun : environment.host.command pages (table.put key data) (memory, e) = some (.ok json, after, e')) :
    ∃ item, json = .map item ∧ table.Shows after key item ∧
      Attribute.toJsonMap (table.layout.newItem key (Attribute.ofJsonMap (Assoc.ofList (table.shape data)))
        (environment.now e).1) = .ok item := by
  rw [Table.put, environment.command_now_bind] at hrun
  obtain ⟨_, between, hreplies, hrest⟩ := environment.command_ask_bind_inv hrun
  cases hreplies with
  | put hkey _ =>
    obtain ⟨hjson, hafter⟩ := Prod.mk.inj (Option.some.inj hrest)
    cases hafter
    obtain ⟨item, hread, rfl⟩ := itemJson_eq_ok hjson
    cases TableLayout.eq_of_keyOf?_newItem hkeys hcreated hkey
    exact ⟨item, rfl, ⟨_, Memory.item?_store_self .., hread⟩, hread⟩

/-- An accumulation at a key that has no item answers with the first counters, and puts them. -/
theorem accumulate_puts {counters : Json.Map} {path? : Option String}
    (hitem : memory.item? table.layout key = none)
    (hrun : environment.host.command pages (table.accumulate key counters path?) (memory, e) =
      some (.ok json, after, e')) :
    ∃ item, json = .map (firstCounters counters path? (environment.now e).1) ∧ table.Shows after key item ∧
      Assoc.find? item table.layout.dataName = some (if table.layout.dataName = createdName
        then .string (environment.now (environment.now e).2).1
        else .map (Assoc.ofList (table.shape (firstCounters counters path? (environment.now e).1)))) := by
  rw [Table.accumulate, Host.command_ask_bind _ _ (environment.answer_getItem e), hitem] at hrun
  rw [environment.command_now_bind] at hrun
  obtain ⟨put, between, hput, hrest⟩ := Host.command_bind_inv_ok hrun
  obtain ⟨item, -, hshows, hread⟩ := put_shows hkeys hcreated hput
  cases hrest
  exact ⟨item, rfl, hshows, find?_dataName_newItem hread⟩

end KeysApart

/-- What a write returns is what is read at its key next, all of it or its data, except that an accumulation which puts
its counters answers with them as they were before they were shaped, or before the time took their place. -/
theorem returned_iff_verbatim (table : Table) (key : Key) (write : Write) {ε : Type} (environment : Environment ε)
    (pages : Nat) {memory after : Memory} {e e' : ε} {result : Json}
    (hrun : environment.host.command pages (write.command table key) (memory, e) = some (.ok result, after, e'))
    (hapart : write.Puts (memory.item? table.layout key) → table.layout.partitionName ≠ table.layout.sortName ∧
      table.layout.partitionName ≠ createdName ∧ table.layout.sortName ≠ createdName) :
    ∃ item, environment.host.command pages (table.get key) (after, e') =
        some (.ok (some (.map item)), after.counted .getItem, e') ∧
      (write.Tells table.layout item result ↔
        write.Verbatim table (memory.item? table.layout key) (environment.now e).1) := by
  cases write with
  | put data =>
    obtain ⟨hkeys, hcreated⟩ := hapart trivial
    obtain ⟨item, htells, hshows, -⟩ := put_shows hkeys hcreated hrun
    exact ⟨item, hshows.get, iff_of_true htells trivial⟩
  | update data =>
    obtain ⟨item, htells, hshows⟩ := update_shows hrun
    exact ⟨item, hshows.get, iff_of_true htells trivial⟩
  | increment counters =>
    obtain ⟨item, htells, hshows⟩ := increment_shows hrun
    exact ⟨item, hshows.get, iff_of_true htells trivial⟩
  | accumulate counters path? =>
    cases hitem : memory.item? table.layout key with
    | none =>
      obtain ⟨hkeys, hcreated⟩ := hapart hitem
      obtain ⟨item, rfl, hshows, hdata⟩ := accumulate_puts hkeys hcreated hitem hrun
      refine ⟨item, hshows.get, ?_⟩
      simp only [Write.Tells, Write.Verbatim, hdata]
      by_cases hplace : table.layout.dataName = createdName
      · simp [hplace]
      · simp [hplace]
    | some stored =>
      obtain ⟨item, htells, hshows⟩ := accumulate_updates hitem hrun
      exact ⟨item, hshows.get, iff_of_true htells fun hnone => nomatch hnone⟩

def siteTable : Table where
  layout := { table := "sales" }
  shape data := Assoc.insert data "site" (.string "s1")

/-- The site is stored with the first counters, and missing in the answer. -/
theorem returned_iff_verbatim_site : ∃ after item,
    Environment.still.host.command 1 (siteTable.accumulate ⟨"SITE#s1", "SALES"⟩ [("sold", .number .zero)] none) ({}, ()) =
      some (.ok (.map [("sold", .number .zero), ("timestamp", .string "1970-01-01T00:00:00Z")]), after, ()) ∧
    Environment.still.host.command 1 (siteTable.get ⟨"SITE#s1", "SALES"⟩) (after, ()) =
      some (.ok (some (.map item)), after.counted .getItem, ()) ∧
    Assoc.find? item "data" = some (.map [("site", .string "s1"), ("sold", .number .zero),
      ("timestamp", .string "1970-01-01T00:00:00Z")]) ∧
    ¬ (Write.accumulate [("sold", .number .zero)] none).Tells siteTable.layout item
      (.map [("sold", .number .zero), ("timestamp", .string "1970-01-01T00:00:00Z")]) := by
  have hrun : Environment.still.host.command 1
      ((Write.accumulate [("sold", .number .zero)] none).command siteTable ⟨"SITE#s1", "SALES"⟩) ({}, ()) =
        some (.ok (.map [("sold", .number .zero), ("timestamp", .string "1970-01-01T00:00:00Z")]), _, ()) := rfl
  obtain ⟨item, hget, htells⟩ := returned_iff_verbatim _ _ _ _ _ hrun fun _ => by decide
  refine ⟨_, item, hrun, hget, ?_, fun h => absurd ((htells.1 h rfl).2) (by decide)⟩
  cases Option.some.inj (congrArg (Option.map Prod.fst) hget)
  rfl

end Table

end KeyedRecords
