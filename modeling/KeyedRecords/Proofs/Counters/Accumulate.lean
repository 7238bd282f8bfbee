import KeyedRecords.Proofs.Counters.Merge
import KeyedRecords.Proofs.Counters.Total
import KeyedRecords.Proofs.Store.Answer
import KeyedRecords.Proofs.Update.Keys

/-! Counters that are accumulated call by call under one key. The first call writes them with the time, every later one
reads what is stored and sets the sums. Main statements: `Table.command_accumulate_first`,
`Table.command_accumulate`. -/

namespace KeyedRecords

open Attribute (Node nodeIn nodeAt_entry)

/-! ## Setting the data of an item -/

def TableLayout.withData (layout : TableLayout) (item data : Item) (time : String) : Item :=
  Assoc.insert (Assoc.insert item updatedName (.string time)) layout.dataName (.map data)

theorem find?_withData (layout : TableLayout) (item data : Item) (time name : String) :
    Assoc.find? (layout.withData item data time) name =
      if name = layout.dataName then some (.map data)
      else if name = updatedName then some (.string time) else Assoc.find? item name := by
  rw [TableLayout.withData, Assoc.find?_insert, Assoc.find?_insert]

theorem sorted_updateItem (layout : TableLayout) (data : Json.Map) (time : String) :
    Assoc.Sorted (Table.updateItem layout data time) := by
  unfold Table.updateItem
  dsimp only
  split
  · exact List.pairwise_singleton _ _
  · exact Assoc.sorted_insert (List.pairwise_singleton _ _) _ _

theorem Update.apply_set (entries item : Item) :
    (Update.set entries).apply item = (entries.flatMap fun entry =>
      setAt ([] ++ [(unmark entry.1).1]) (unmark entry.1).2 entry.2).foldlM (Assignment.applyAt 0 .set) item := by
  rw [← setEntries_eq_flatMap]
  rfl

theorem unmark_updatedName : unmark updatedName = (updatedName, false) := by decide

section SetData

variable {layout : TableLayout} (hmark : Unmarked layout.dataName) (time : String) {merged : Json.Map}

theorem mem_updateItem {entry : String × Attribute} (h : entry ∈ Table.updateItem layout merged time) :
    entry = (updatedName, .string time) ∨
      merged ≠ [] ∧ entry = (layout.dataName, .map (Attribute.ofJsonMap merged)) := by
  unfold Table.updateItem at h
  dsimp only at h
  split at h
  · exact Or.inl (List.mem_singleton.1 h)
  · rename_i hne
    rcases Assoc.mem_insert h with rfl | h
    · exact Or.inr ⟨by simpa using hne, rfl⟩
    · exact Or.inl (List.mem_singleton.1 h)

theorem find?_updateItem (name : String) : Assoc.find? (Table.updateItem layout merged time) name =
    if merged ≠ [] ∧ name = layout.dataName then some (.map (Attribute.ofJsonMap merged))
    else if name = updatedName then some (.string time) else none := by
  have hstamped : Assoc.find? [(updatedName, Attribute.string time)] name =
      if name = updatedName then some (.string time) else none := by
    rw [Assoc.find?, Assoc.find?_nil]
    by_cases h : name = updatedName
    · rw [if_pos h, if_pos h.symm]
    · rw [if_neg h, if_neg (Ne.symm h)]
  unfold Table.updateItem
  dsimp only
  cases merged with
  | nil => simp [hstamped]
  | cons first rest => simp [Assoc.find?_insert, hstamped]

theorem changes_updated (value? : Option Attribute) :
    Assignment.Changes 0 .set (setAt [updatedName] (unmark updatedName).2 (.string time)) updatedName value?
      (.string time) :=
  Assignment.changes_last rfl (newValue_set _ _)

include hmark

/-- The data are set by assignments below their name. -/
theorem setAt_data (hne : merged ≠ []) :
    setAt [layout.dataName] (unmark layout.dataName).2 (.map (Attribute.ofJsonMap merged)) =
        setEntries [layout.dataName] (Attribute.ofJsonMap merged) ∧
      ∀ a ∈ setEntries [layout.dataName] (Attribute.ofJsonMap merged),
        Assignment.Below 0 layout.dataName a := by
  constructor
  · rw [unmark_of_not_suffix hmark]
    cases merged with
    | nil => exact absurd rfl hne
    | cons first rest => rfl
  · intro a ha
    exact below_of_mem_setEntries (show a ∈ setEntries ([] ++ [layout.dataName]) _ from ha)

theorem unmark_of_mem_updateItem {entry : String × Attribute}
    (h : entry ∈ Table.updateItem layout merged time) : (unmark entry.1).1 = entry.1 := by
  rcases mem_updateItem time h with rfl | ⟨-, rfl⟩
  · rw [unmark_updatedName]
  · rw [unmark_of_not_suffix hmark]

theorem keys_updateItem : (Table.updateItem layout merged time).map (fun entry => (unmark entry.1).1) =
    Assoc.keys (Table.updateItem layout merged time) :=
  List.map_congr_left fun _ hentry => unmark_of_mem_updateItem hmark time hentry

variable {item data : Item} (hdata : Assoc.find? item layout.dataName = some (.map data))

include hdata

section Set

variable {after : Item}
  (hset : (setEntries [layout.dataName] (Attribute.ofJsonMap merged)).foldlM (Assignment.applyAt 1 .set) data =
    .ok after)

include hset

/-- Each entry of the update brings what the item is to have at its name. -/
theorem changes_updateItem (hplace : merged ≠ [] ∨ layout.dataName ≠ updatedName) {entry : String × Attribute}
    (hentry : entry ∈ Table.updateItem layout merged time) : ∃ new,
      Assignment.Changes 0 .set (setAt ([] ++ [(unmark entry.1).1]) (unmark entry.1).2 entry.2) (unmark entry.1).1
          (Assoc.find? item (unmark entry.1).1) new ∧
        Assoc.find? (layout.withData item after time) entry.1 = some new := by
  rw [unmark_of_mem_updateItem hmark time hentry, find?_withData]
  have hfound := Assoc.find?_of_mem (sorted_updateItem layout merged time).nodup hentry
  rw [find?_updateItem] at hfound
  rcases mem_updateItem time hentry with rfl | ⟨hne, rfl⟩
  · have hother : updatedName ≠ layout.dataName := by
      intro he
      rw [if_pos ⟨hplace.resolve_right (not_not_intro he.symm), he⟩] at hfound
      cases hfound
    exact ⟨.string time, changes_updated time _, by rw [if_neg hother, if_pos rfl]⟩
  · obtain ⟨hbelow, hpaths⟩ := setAt_data hmark hne
    refine ⟨.map after, ?_, if_pos rfl⟩
    rw [hdata, show setAt ([] ++ [layout.dataName]) _ _ = _ from hbelow]
    exact Assignment.changes_nested hpaths hset

omit hmark in
/-- A name that the update does not set is to stay. Of the data nothing is set where they are not in it. -/
theorem find?_withData_unset {name : String}
    (hname : Assoc.find? (Table.updateItem layout merged time) name = none) :
    Assoc.find? item name = Assoc.find? (layout.withData item after time) name := by
  rw [find?_withData]
  rw [find?_updateItem] at hname
  split at hname
  · cases hname
  · rename_i hunset
    split at hname
    · cases hname
    · rename_i hunstamped
      rw [if_neg hunstamped]
      split
      · rename_i he
        cases merged with
        | nil =>
          cases hset
          rw [he, hdata]
        | cons first rest => exact absurd ⟨List.cons_ne_nil _ _, he⟩ hunset
      · rfl

/-- The update of a table item sets the given data and the time, and every other name of the item stays. Nothing is set
in the place of the data but what is given. -/
theorem apply_set_data_names (hplace : merged ≠ [] ∨ layout.dataName ≠ updatedName) :
    ∃ updated, (Update.set (Table.updateItem layout merged time)).apply item = .ok updated ∧
      (∀ name, Assoc.find? updated name = Assoc.find? (layout.withData item after time) name) ∧
      (Assoc.Sorted item → Assoc.Sorted updated) := by
  have hnames : (Table.updateItem layout merged time).map (fun entry => (unmark entry.1).1) =
      Assoc.keys (Table.updateItem layout merged time) := keys_updateItem hmark time
  obtain ⟨updated, hrun, hentries, hothers, hkept⟩ := Assignment.foldlM_changes
    (hnames ▸ (sorted_updateItem layout merged time).nodup) fun _ => changes_updateItem hmark time hdata hset hplace
  refine ⟨updated, (Update.apply_set _ _).trans hrun, fun name => ?_, hkept⟩
  cases hname : Assoc.find? (Table.updateItem layout merged time) name with
  | some value =>
    obtain ⟨new, hnew, hfound⟩ := hentries _ (Assoc.mem_of_find? hname)
    rw [unmark_of_mem_updateItem hmark time (Assoc.mem_of_find? hname)] at hnew
    rw [hnew, hfound]
  | none =>
    rw [hothers name (hnames ▸ Assoc.find?_eq_none_iff.1 hname)]
    exact find?_withData_unset time hdata hset hname

end Set

/-- The update of a table item in order leaves the item with the given data set and the time. -/
theorem apply_set_data {after : Item} (hitem : Assoc.Sorted item)
    (hset : (setEntries [layout.dataName] (Attribute.ofJsonMap merged)).foldlM (Assignment.applyAt 1 .set) data =
      .ok after) (hplace : merged ≠ [] ∨ layout.dataName ≠ updatedName) :
    (Update.set (Table.updateItem layout merged time)).apply item =
      .ok (layout.withData item after time) := by
  obtain ⟨updated, hrun, hnames, hsorted⟩ := apply_set_data_names hmark time hdata hset hplace
  have hwith : Assoc.Sorted (layout.withData item after time) :=
    Assoc.sorted_insert (Assoc.sorted_insert hitem _ _) _ _
  rw [hrun, Assoc.eq_of_find?_eq (hsorted hitem) hwith hnames]

/-- The update of a table item fails if the given data cannot be set. -/
theorem apply_set_data_fails {e : StoreError}
    (hset : (setEntries [layout.dataName] (Attribute.ofJsonMap merged)).foldlM (Assignment.applyAt 1 .set) data =
      .error e) : (Update.set (Table.updateItem layout merged time)).apply item = .error e := by
  have hne : merged ≠ [] := by
    rintro rfl
    cases hset
  obtain ⟨hbelow, hpaths⟩ := setAt_data hmark hne
  have hfails : Assignment.Fails 0 .set
      (setAt ([] ++ [layout.dataName]) (unmark layout.dataName).2 (.map (Attribute.ofJsonMap merged)))
      layout.dataName (Assoc.find? item layout.dataName) e := by
    rw [hdata, show setAt ([] ++ [layout.dataName]) _ _ = _ from hbelow]
    exact Assignment.fails_nested hpaths hset
  have hmem : (layout.dataName, Attribute.map (Attribute.ofJsonMap merged)) ∈
      Table.updateItem layout merged time :=
    Assoc.mem_of_find? ((find?_updateItem time _).trans (if_pos ⟨hne, rfl⟩))
  have hrun : ∃ failure, ((Table.updateItem layout merged time).flatMap fun entry =>
      setAt ([] ++ [(unmark entry.1).1]) (unmark entry.1).2 entry.2).foldlM (Assignment.applyAt 0 .set) item =
        .error failure ∧ failure = e := by
    refine Assignment.foldlM_fails
      (keys_updateItem hmark time ▸ (sorted_updateItem layout merged time).nodup) (fun entry hentry => ?_)
      ⟨_, hmem, e, ?_⟩
    · rw [unmark_of_mem_updateItem hmark time hentry]
      rcases mem_updateItem time hentry with rfl | ⟨-, rfl⟩
      · exact Or.inl ⟨_, changes_updated time _⟩
      · exact Or.inr ⟨e, hfails, rfl⟩
    · rw [unmark_of_mem_updateItem hmark time hmem]
      exact hfails
  obtain ⟨failure, hrun, rfl⟩ := hrun
  rw [Update.apply_set, hrun]

end SetData

/-! ## The item under a key -/

/-- Whether an item is stored under a key that has the given data, in order and readable. -/
def Table.Keeps (table : Table) (key : Key) (memory : Memory) (data : Item) : Prop :=
  ∃ item, memory.item? table.layout key = some item ∧ table.layout.dataOf? item = some data ∧
    (Attribute.map item).Ordered ∧ (Attribute.map item).Readable

theorem ordered_keyItem (layout : TableLayout) (key : Key) : (Attribute.map (layout.keyItem key)).Ordered := by
  refine Attribute.ordered_map (Assoc.sorted_ofList _) fun name value hvalue => ?_
  rcases List.mem_pair.1 (Assoc.mem_ofList (Assoc.mem_of_find? hvalue)) with he | he <;> cases he <;>
    exact Attribute.ordered_of_not_map fun _ he => by cases he

theorem readable_keyItem (layout : TableLayout) (key : Key) :
    (Attribute.map (layout.keyItem key)).Readable := by
  refine Attribute.readable_map_iff.2 fun entry hentry => ?_
  rcases List.mem_pair.1 (Assoc.mem_ofList hentry) with rfl | rfl <;> exact ⟨_, rfl⟩

theorem Attribute.Readable.insert {entries : Item} (h : (Attribute.map entries).Readable) (name : String)
    {value : Attribute} (hvalue : value.Readable) :
    (Attribute.map (Assoc.insert entries name value)).Readable := by
  refine readable_map_iff.2 fun entry hentry => ?_
  rcases Assoc.mem_insert hentry with rfl | hentry
  · exact hvalue
  · exact readable_map_iff.1 h entry hentry

/-- A new item is in order and readable if its data is. -/
theorem ordered_readable_newItem (layout : TableLayout) (key : Key) {data : Item}
    (hordered : (Attribute.map data).Ordered) (hreadable : (Attribute.map data).Readable) (time : String) :
    (Attribute.map (layout.newItem key data time)).Ordered ∧
      (Attribute.map (layout.newItem key data time)).Readable :=
  ⟨((ordered_keyItem layout key).insert _ hordered).insert _
      (Attribute.ordered_of_not_map fun _ he => by cases he),
    ((readable_keyItem layout key).insert _ hreadable).insert _ ⟨_, rfl⟩⟩

section Updates

variable {table : Table} {key : Key} {ε : Type} (environment : Environment ε) (pages : Nat) {memory : Memory}
  (e : ε) {item : Item} (hitem : memory.item? table.layout key = some item) {data : Json.Map}

include hitem

/-- An update that can be made is answered with the item that it leaves. -/
theorem Table.command_update_applied {updated : Item}
    (happly : (Update.set (Table.updateItem table.layout data (environment.now e).1)).apply item = .ok updated) :
    environment.host.command pages (table.update key data) (memory, e) =
      some (itemJson updated, (memory.counted .updateItem).store table.layout key updated,
        (environment.now e).2) := by
  have hanswer := environment.answer_updateItem_checked (environment.now e).2 hitem
    (show Memory.check none (some item) key = .ok () from rfl) happly
  rw [Table.update, environment.command_now_bind]
  exact Host.command_ask_bind _ _ hanswer _

/-- An update that cannot be made is answered with the failure. -/
theorem Table.command_update_refused {failure : StoreError}
    (happly : (Update.set (Table.updateItem table.layout data (environment.now e).1)).apply item =
      .error failure) :
    environment.host.command pages (table.update key data) (memory, e) =
      some (.error (.store failure), memory.counted .updateItem, (environment.now e).2) := by
  have hanswer := environment.answer_updateItem_refused (environment.now e).2 hitem
    (show Memory.check none (some item) key = .ok () from rfl) happly
  rw [Table.update, environment.command_now_bind]
  exact Host.command_ask_bind_error _ _ hanswer _

end Updates

section Calls

variable {table : Table} {key : Key} {ε : Type} (environment : Environment ε) (pages : Nat) {memory : Memory}
  (e : ε) {item data : Item} (hitem : memory.item? table.layout key = some item)
  (hdata : table.layout.dataOf? item = some data) {stored : Json.Map}
  (hread : Attribute.toJsonMap data = .ok stored) {counters : Json.Map} {path? : Option String}

/-- What an accumulation answers of an item as it is read: its data, or none. -/
def Table.dataAnswer (table : Table) (updated : Json) : Json :=
  (Assoc.find? (updated.asMap?.getD []) table.layout.dataName).getD (.map [])

include hitem hdata hread

/-- An accumulation at an item merges the counters with the data that it has read. -/
theorem Table.command_accumulate_read :
    environment.host.command pages (table.accumulate key counters path?) (memory, e) =
      environment.host.command pages (do
        let merged ← (Counters.merge stored counters path? : Result Json.Map)
        table.dataAnswer <$> table.update key merged) (memory.counted .getItem, e) := by
  have hjson : table.dataJson item = .ok stored := by
    rw [Table.dataJson, hdata]
    exact hread
  rw [Table.accumulate, Host.command_ask_bind _ _ (environment.answer_getItem e), hitem]
  dsimp only
  rw [hjson, Host.command_ok_bind]
  simp only [map_eq_pure_bind]
  rfl

/-- A merge that is refused ends an accumulation before anything is written. -/
theorem Table.command_accumulate_refused {failure : RecordError}
    (hmerge : Counters.merge stored counters path? = .error failure) :
    environment.host.command pages (table.accumulate key counters path?) (memory, e) =
      some (.error failure, memory.counted .getItem, e) := by
  rw [command_accumulate_read environment pages e hitem hdata hread, hmerge]
  exact Host.command_error_bind ..

/-- What a merge brings is written by an update. -/
theorem Table.command_accumulate_merged {merged : Json.Map}
    (hmerge : Counters.merge stored counters path? = .ok merged) :
    environment.host.command pages (table.accumulate key counters path?) (memory, e) =
      (environment.host.command pages (table.update key merged) (memory.counted .getItem, e)).map
        fun (result, after) => (result.map table.dataAnswer, after) := by
  rw [command_accumulate_read environment pages e hitem hdata hread, hmerge, Host.command_ok_bind,
    Host.command_map]

theorem Table.command_accumulate_applied {merged : Json.Map} {updated : Item}
    (hmerge : Counters.merge stored counters path? = .ok merged)
    (happly : (Update.set (updateItem table.layout merged (environment.now e).1)).apply item = .ok updated) :
    environment.host.command pages (table.accumulate key counters path?) (memory, e) =
      some ((itemJson updated).map table.dataAnswer,
        ((memory.counted .getItem).counted .updateItem).store table.layout key updated,
        (environment.now e).2) := by
  have hread' : (memory.counted .getItem).item? table.layout key = some item := hitem
  rw [command_accumulate_merged environment pages e hitem hdata hread hmerge,
    command_update_applied environment pages e hread' happly]
  rfl

theorem Table.command_accumulate_failed {merged : Json.Map} {failure : StoreError}
    (hmerge : Counters.merge stored counters path? = .ok merged)
    (happly : (Update.set (updateItem table.layout merged (environment.now e).1)).apply item =
      .error failure) :
    environment.host.command pages (table.accumulate key counters path?) (memory, e) =
      some (.error (.store failure), (memory.counted .getItem).counted .updateItem,
        (environment.now e).2) := by
  have hread' : (memory.counted .getItem).item? table.layout key = some item := hitem
  rw [command_accumulate_merged environment pages e hitem hdata hread hmerge,
    command_update_refused environment pages e hread' happly]
  rfl

end Calls

section Commands

variable {table : Table} (hnames : table.layout.WellNamed) {key : Key} {ε : Type}
  (environment : Environment ε) (pages : Nat) {memory : Memory} (e : ε)

include hnames

/-- A put succeeds, and stores the data as it is given. -/
theorem Table.command_put (key : Key) (memory : Memory) {data : Json.Map}
    (hdata : (Attribute.map (Attribute.ofJsonMap (Assoc.ofList (table.shape data)))).Ordered) :
    ∃ json memory' e', environment.host.command pages (table.put key data) (memory, e) =
        some (.ok json, (memory', e')) ∧
      table.Keeps key memory' (Attribute.ofJsonMap (Assoc.ofList (table.shape data))) := by
  obtain ⟨hitem, json, hjson⟩ := ordered_readable_newItem table.layout key hdata
    (Attribute.readable_ofJson (.map _)) (environment.now e).1
  have hkey := TableLayout.keyOf?_newItem hnames key
    (Attribute.ofJsonMap (Assoc.ofList (table.shape data))) (environment.now e).1
  have hanswer := environment.answer_putItem (environment.now e).2 hkey
    (show Memory.check none (memory.item? table.layout key) key = .ok () from rfl)
  refine ⟨json, (memory.counted .putItem).store table.layout key _, (environment.now e).2, ?_, _,
    Memory.item?_store_self .., TableLayout.dataOf?_newItem hnames key _ _, hitem, json, hjson⟩
  rw [Table.put, environment.command_now_bind]
  dsimp only
  rw [Host.command_ask_bind _ _ hanswer]
  show environment.host.command pages (liftM (Attribute.map _).toJson : Command Json) _ = _
  rw [hjson]
  rfl

/-- An update with what sets the data succeeds. -/
theorem Table.command_update (hmark : Unmarked table.layout.dataName) {data after : Item} {merged : Json.Map}
    (hkeeps : table.Keeps key memory data)
    (hset : (setEntries [table.layout.dataName] (Attribute.ofJsonMap merged)).foldlM
      (Assignment.applyAt 1 .set) data = .ok after)
    (hordered : (Attribute.map after).Ordered) (hreadable : (Attribute.map after).Readable) :
    ∃ json memory' e', environment.host.command pages (table.update key merged) (memory, e) =
        some (.ok json, (memory', e')) ∧ table.Keeps key memory' after := by
  obtain ⟨item, hitem, hdata, hitemOrdered, hitemReadable⟩ := hkeeps
  have happly := apply_set_data hmark (environment.now e).1 (TableLayout.dataOf?_eq_some_iff.1 hdata)
    hitemOrdered.sorted hset (Or.inr hnames.updated.2.2)
  have hstamp : (Attribute.string (environment.now e).1).Ordered :=
    Attribute.ordered_of_not_map fun _ he => by cases he
  have hupdated := (hitemOrdered.insert updatedName hstamp).insert table.layout.dataName hordered
  have htime : (Attribute.string (environment.now e).1).Readable := ⟨_, rfl⟩
  obtain ⟨json, hjson⟩ := (hitemReadable.insert updatedName htime).insert table.layout.dataName hreadable
  have hrun := Table.command_update_applied environment pages e hitem happly
  rw [show itemJson (table.layout.withData item after (environment.now e).1) = .ok json from hjson] at hrun
  exact ⟨json, _, _, hrun, _, Memory.item?_store_self ..,
    TableLayout.dataOf?_eq_some_iff.2 (Assoc.find?_insert_self ..), hupdated, json, hjson⟩

/-- Counters that fit what is stored are accumulated. -/
theorem Table.command_accumulate (hmark : Unmarked table.layout.dataName) {data : Item}
    (hkeeps : table.Keeps key memory data) (hne : data ≠ []) {counters : Json.Map} {path? : Option String}
    (hordered : (Json.map (Counters.nest path? counters)).Ordered)
    (hintegral : (Json.map (Counters.nest path? counters)).Integral)
    (hmarks : (Json.map (Counters.nest path? counters)).Named Unmarked)
    (hfits : Fits (some (.map data)) (.map (Counters.nest path? counters))) :
    ∃ json memory' e' after,
      environment.host.command pages (table.accumulate key counters path?) (memory, e) =
        some (.ok json, (memory', e')) ∧
      table.Keeps key memory' after ∧
      Raises (some (.map data)) (.map (Counters.nest path? counters)) (.map after) := by
  obtain ⟨item, hitem, hdata, hitemOrdered, hitemReadable⟩ := hkeeps
  have hfound := TableLayout.dataOf?_eq_some_iff.1 hdata
  have hdataOrdered : (Attribute.map data).Ordered := hitemOrdered.inner hfound
  have hdataReadable : (Attribute.map data).Readable :=
    Attribute.readable_map_iff.1 hitemReadable _ (Assoc.mem_of_find? hfound)
  obtain ⟨stored, hstored⟩ := Attribute.readable_map_iff_toJsonMap.1 hdataReadable
  obtain ⟨merged, after, hmerged, hset, hraises⟩ := merge_raises hstored hne hdataOrdered hordered hmarks
    hintegral hfits [table.layout.dataName]
  have hafterOrdered := hraises.ordered fun _ he => Option.some.inj he ▸ hdataOrdered
  have hafterReadable := hraises.readable hintegral hfits (fun _ he => Option.some.inj he ▸ hdataOrdered)
    fun _ he => Option.some.inj he ▸ hdataReadable
  have hread : table.Keeps key (memory.counted .getItem) data :=
    ⟨item, hitem, hdata, hitemOrdered, hitemReadable⟩
  obtain ⟨json, memory', e', hupdate, hafter⟩ := Table.command_update hnames environment pages e hmark hread
    hset hafterOrdered hafterReadable
  refine ⟨table.dataAnswer json, memory', e', after, ?_, hafter, hraises⟩
  rw [Table.command_accumulate_merged environment pages e hitem hdata hstored hmerged, hupdate]
  rfl

end Commands

/-! ## The first call -/

def stampTree (path? : Option String) (time : String) : Item :=
  Attribute.ofJsonMap (Counters.nest path? [("timestamp", .string time)])

def stampPath (path? : Option String) : List String := path?.toList ++ ["timestamp"]

theorem ordered_stampTree (path? : Option String) (time : String) :
    (Attribute.map (stampTree path? time)).Ordered := by
  have hstamp : (Json.map [("timestamp", .string time)]).Ordered :=
    Json.Ordered.single (Json.ordered_of_not_map fun _ he => by cases he) "timestamp"
  cases path? with
  | none => exact Attribute.ordered_ofJson hstamp
  | some path => exact Attribute.ordered_ofJson (hstamp.single path)

theorem raises_stamped {counters : Json.Map} (hordered : (Json.map counters).Ordered)
    (hunstamped : Assoc.find? counters "timestamp" = none) (time : String) :
    Raises (some (.map [("timestamp", .string time)])) (.map counters)
      (.map (Attribute.ofJsonMap (Assoc.insert counters "timestamp" (.string time)))) := by
  have hfind : ∀ name, Assoc.find? (Attribute.ofJsonMap (Assoc.insert counters "timestamp" (.string time)))
      name = if name = "timestamp" then some (.string time)
        else (Assoc.find? counters name).map Attribute.ofJson := by
    intro name
    rw [Attribute.find?_ofJsonMap, Assoc.find?_insert]
    split <;> rfl
  have hstamp : ∀ name, Assoc.find? [("timestamp", Attribute.string time)] name =
      if name = "timestamp" then some (.string time) else none := by
    intro name
    rw [Assoc.find?, Assoc.find?_nil]
    by_cases h : name = "timestamp"
    · rw [if_pos h, if_pos h.symm]
    · rw [if_neg h, if_neg (Ne.symm h)]
  refine Raises.of_entries ?_ ?_ ?_
  · exact fun _ => Attribute.sorted_ofJsonMap.2 (Assoc.sorted_insert hordered.sorted _ _)
  · intro name hnone
    rw [hfind, hstamp, hnone]
    rfl
  · intro name value hvalue
    have hne : name ≠ "timestamp" := by
      rintro rfl
      cases hunstamped.symm.trans hvalue
    refine ⟨Attribute.ofJson value, ?_, ?_⟩
    · rw [hfind, if_neg hne, hvalue]
      rfl
    · rw [hstamp, if_neg hne]
      exact raises_ofJson (hordered.inner hvalue)

theorem Raises.single {item : Item} {name : String} {value : Json} {new : Attribute}
    (h : Raises (Assoc.find? item name) value new) :
    Raises (some (.map item)) (.map [(name, value)]) (.map (Assoc.insert item name new)) := by
  refine Raises.of_entries (fun hsorted => Assoc.sorted_insert hsorted name new) ?_ ?_
  · intro other hnone
    refine Assoc.find?_insert_of_ne item new ?_
    rintro rfl
    cases hnone.symm.trans (if_pos rfl)
  · intro other found hfound
    cases List.mem_singleton.1 (Assoc.mem_of_find? hfound)
    exact ⟨new, Assoc.find?_insert_self item name new, h⟩

/-- The counters of a first call are those of its time stamp raised by what is added. -/
theorem raises_firstCounters {counters : Json.Map} {path? : Option String}
    (hordered : (Json.map (Counters.nest path? counters)).Ordered)
    (hunstamped : (Json.map (Counters.nest path? counters)).Named (· ≠ "timestamp")) (time : String) :
    Raises (some (.map (stampTree path? time))) (.map (Counters.nest path? counters))
      (.map (Attribute.ofJsonMap (Table.firstCounters counters path? time))) := by
  have hfresh : ∀ {entries : Json.Map}, (Json.map entries).Named (· ≠ "timestamp") →
      Assoc.find? entries "timestamp" = none := by
    intro entries hnames
    cases hvalue : Assoc.find? entries "timestamp" with
    | none => rfl
    | some value => exact absurd rfl (hnames.inner hvalue).1
  cases path? with
  | none => exact raises_stamped hordered (hfresh hunstamped) time
  | some path =>
    have hvalue : Assoc.find? (Counters.nest (some path) counters) path = some (.map counters) := if_pos rfl
    have hraises := raises_stamped (hordered.inner hvalue) (hfresh (hunstamped.inner hvalue).2) time
    rw [← show Assoc.find? (stampTree (some path) time) path = some (.map [("timestamp", .string time)]) from
      if_pos rfl] at hraises
    have hsingle := Raises.single hraises
    have hinsert : ∀ old new : Attribute, Assoc.insert [(path, old)] path new = [(path, new)] := by
      intro old new
      rw [Assoc.insert, if_neg (String.lt_irrefl path), if_pos rfl]
    rw [show Assoc.insert (stampTree (some path) time) path _ = _ from hinsert _ _] at hsingle
    exact hsingle

/-- The first call under a key writes its counters with the time. -/
theorem Table.command_accumulate_first {table : Table} (hshape : table.shape = id)
    (hnames : table.layout.WellNamed) {key : Key} {ε : Type} (environment : Environment ε) (pages : Nat)
    {memory : Memory} (e : ε) (hnone : memory.item? table.layout key = none) {counters : Json.Map}
    {path? : Option String} (hordered : (Json.map (Counters.nest path? counters)).Ordered)
    (hunstamped : (Json.map (Counters.nest path? counters)).Named (· ≠ "timestamp")) :
    ∃ json memory' e' data,
      environment.host.command pages (table.accumulate key counters path?) (memory, e) =
        some (.ok json, (memory', e')) ∧
      table.Keeps key memory' data ∧
      Raises (some (.map (stampTree path? (environment.now e).1))) (.map (Counters.nest path? counters))
        (.map data) := by
  have hraises := raises_firstCounters hordered hunstamped (environment.now e).1
  have hdata := hraises.ordered fun _ he => Option.some.inj he ▸ ordered_stampTree path? (environment.now e).1
  have hlist : Assoc.ofList (table.shape (Table.firstCounters counters path? (environment.now e).1)) =
      Table.firstCounters counters path? (environment.now e).1 := by
    rw [hshape]
    exact Assoc.ofList_of_sorted (Attribute.sorted_ofJsonMap.1 hdata.sorted)
  have hstored : (Attribute.map (Attribute.ofJsonMap (Assoc.ofList
      (table.shape (Table.firstCounters counters path? (environment.now e).1))))).Ordered := by
    rw [hlist]
    exact hdata
  obtain ⟨json, memory', e', hput, hkeeps⟩ := Table.command_put hnames environment pages
    (environment.now e).2 key (memory.counted .getItem) hstored
  rw [hlist] at hkeeps
  refine ⟨.map (Table.firstCounters counters path? (environment.now e).1), memory', e', _, ?_, hkeeps, hraises⟩
  rw [Table.accumulate, Host.command_ask_bind _ _ (environment.answer_getItem e), hnone]
  dsimp only
  rw [environment.command_now_bind, Host.command_bind_ok _ _ hput]
  rfl

end KeyedRecords
