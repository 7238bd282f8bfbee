import KeyedRecords.Proofs.Counters.AccumulateAll
import KeyedRecords.Proofs.Counters.Outcome

/-! What an accumulation does to an item that is there: the counters are joined to the data, or nothing is written.
The call answers with the data only if all of the item can be read. Main statements: `accumulate_ok_iff`,
`accumulate_joins`. -/

namespace KeyedRecords

/-- Whether the attributes of an item that an update of data does not set can be read. -/
def TableLayout.OthersReadable (layout : TableLayout) (item : Item) : Prop :=
  ∀ entry ∈ item, entry.1 ≠ layout.dataName → entry.1 ≠ updatedName → entry.2.Readable

theorem readable_withData_iff {layout : TableLayout} {item data : Item} (hitem : Assoc.Sorted item)
    (hdata : (Attribute.map data).Readable) (time : String) :
    (Attribute.map (layout.withData item data time)).Readable ↔ layout.OthersReadable item := by
  have hstamped := Assoc.sorted_insert hitem updatedName (Attribute.string time)
  rw [TableLayout.withData, Attribute.readable_insert_iff hstamped]
  constructor
  · rintro ⟨-, hothers⟩ entry hentry hdataName hupdatedName
    refine hothers entry (Assoc.mem_of_find? ?_) hdataName
    rw [Assoc.find?_insert_of_ne _ _ hupdatedName]
    exact Assoc.find?_of_mem hitem.nodup hentry
  · refine fun hothers => ⟨hdata, fun entry hentry hdataName => ?_⟩
    have hfound := Assoc.find?_of_mem hstamped.nodup hentry
    rw [Assoc.find?_insert] at hfound
    split at hfound
    · exact Option.some.inj hfound ▸ ⟨_, rfl⟩
    · rename_i hupdatedName
      exact hothers entry (Assoc.mem_of_find? hfound) hdataName hupdatedName

theorem Counters.joinEntries_readable {data after : Item} {added : Json.Map} (hdata : (Attribute.map data).Ordered)
    (hread : (Attribute.map data).Readable) (hadded : (Json.map added).Ordered)
    (h : joinEntries data added = some after) : (Attribute.map after).Readable := by
  have hjoin : join (.map data) (.map added) = some (.map after) := by
    rw [join, h]
    rfl
  exact join_readable hdata hread hadded hjoin

theorem Counters.clashes_iff {data : Item} {added : Json.Map} (hadded : (Json.map added).Ordered) :
    Clashes (.map data) (.map added) ↔ joinEntries data added = none := by
  rw [← join_eq_none_iff hadded, join, Option.map_eq_none_iff]

namespace Table

/-- An item that cannot be read has a text that stands for no number. -/
theorem itemJson_error {item : Item} {e : RecordError} (h : itemJson item = .error e) :
    ∃ text, e = .invalidValue (.notANumber text) :=
  Attribute.toJson_error (.map item) h

theorem itemJson_map_eq_ok_iff {item : Item} {answer : Json → Json} :
    (∃ json, (itemJson item).map answer = .ok json) ↔ (Attribute.map item).Readable := by
  constructor
  · rintro ⟨json, hjson⟩
    cases hitem : itemJson item with
    | ok read => exact ⟨read, hitem⟩
    | error e =>
      rw [hitem] at hjson
      cases hjson
  · rintro ⟨read, hread⟩
    exact ⟨answer read, by rw [show itemJson item = .ok read from hread]; rfl⟩

/-- The item that is read with its data has these data for an answer. -/
theorem itemJson_dataAnswer {table : Table} {item data : Item} {read : Json.Map}
    (hdata : Assoc.find? item table.layout.dataName = some (.map data))
    (hread : Attribute.toJsonMap data = .ok read) :
    (itemJson item).map table.dataAnswer = (itemJson item).map fun _ => .map read := by
  cases hitem : itemJson item with
  | error e => rfl
  | ok json =>
    obtain ⟨entries, hentries, hjson⟩ := Attribute.toJson_map_eq_ok.1 hitem
    cases hjson
    rcases Attribute.find?_toJsonMap hentries table.layout.dataName with
      ⟨hnone, -⟩ | ⟨value, found, hvalue, hfound, hanswer⟩
    · cases hnone.symm.trans hdata
    · cases hvalue.symm.trans hdata
      cases hfound.symm.trans (Attribute.toJson_map_eq_ok.2 ⟨read, hread, rfl⟩)
      rw [Except.map, Except.map, dataAnswer, Json.asMap?, Option.getD_some, hanswer]
      rfl

/-! ## What is written and answered -/

/-- What an update leaves of an item that sets what a merge brings, where it joins the counters to the data. -/
structure Joined (layout : TableLayout) (item data : Item) (added merged : Json.Map) (time : String)
    (joined updated : Item) : Prop where
  join : Counters.joinEntries data added = some joined
  free : ¬ Counters.Blocked data added
  readable : (Attribute.map joined).Readable
  others : (Attribute.map updated).Readable ↔ layout.OthersReadable item
  place : merged ≠ [] ∨ layout.dataName ≠ updatedName → updated = layout.withData item joined time

section Items

variable {table : Table} (hmark : Unmarked table.layout.dataName) {key : Key} {memory : Memory} {item data : Item}
  (hitem : memory.item? table.layout key = some item) (hordered : (Attribute.map item).Ordered)
  (hdata : table.layout.dataOf? item = some data) (hread : (Attribute.map data).Readable) {counters : Json.Map}
  {path? : Option String} (hcounters : (Json.map (Counters.nest path? counters)).Ordered)
  (hnames : (Json.map (Counters.nest path? counters)).Named Unmarked) {ε : Type} (environment : Environment ε)
  (pages : Nat) (e : ε)

include hmark hordered hdata

include hread in
/-- An update that sets what joins counters to the data leaves the data joined, unless these stand in the place of
the time and nothing is set in them. -/
theorem exists_joined {added merged : Json.Map} (hadded : (Json.map added).Ordered) {joined : Item}
    (hjoin : Counters.joinEntries data added = some joined)
    (hset : (setEntries [table.layout.dataName] (Attribute.ofJsonMap merged)).foldlM (Assignment.applyAt 1 .set)
      data = .ok joined) (hfree : ¬ Counters.Blocked data added) (time : String) :
    ∃ updated, (Update.set (updateItem table.layout merged time)).apply item = .ok updated ∧
      Joined table.layout item data added merged time joined updated := by
  have hfound := TableLayout.dataOf?_eq_some_iff.1 hdata
  have hreadable := Counters.joinEntries_readable (hordered.inner hfound) hread hadded hjoin
  by_cases hplace : merged ≠ [] ∨ table.layout.dataName ≠ updatedName
  · exact ⟨_, apply_set_data hmark time hfound hordered.sorted hset hplace, hjoin, hfree, hreadable,
      readable_withData_iff hordered.sorted hreadable time, fun _ => rfl⟩
  · -- The time takes the place of the data.
    obtain ⟨hnone, hname⟩ := not_or.1 hplace
    cases not_not.1 hnone
    refine ⟨Assoc.insert item updatedName (.string time), rfl, hjoin, hfree, hreadable, ?_,
      fun h => absurd h hplace⟩
    rw [Attribute.readable_insert_iff hordered.sorted, TableLayout.OthersReadable, not_not.1 hname]
    exact ⟨fun h entry hentry hne _ => h.2 entry hentry hne,
      fun h => ⟨⟨_, rfl⟩, fun entry hentry hne => h entry hentry hne hne⟩⟩

include hitem hcounters hnames

/-- The ways in which an accumulation at an item ends: the merge is refused, the store refuses to set what it brings,
or the counters are joined to the data. -/
theorem accumulate_run {stored : Json.Map} (hstored : Attribute.toJsonMap data = .ok stored) :
    (∃ failure, Counters.Refusal failure ∧ Counters.joinEntries data (Counters.nest path? counters) = none ∧
      ¬ Counters.Blocked data (Counters.nest path? counters) ∧
      environment.host.command pages (table.accumulate key counters path?) (memory, e) =
        some (.error failure, memory.counted .getItem, e)) ∨
    (∃ failure, failure.InvalidPath ∧ Counters.Blocked data (Counters.nest path? counters) ∧
      environment.host.command pages (table.accumulate key counters path?) (memory, e) =
        some (.error (.store failure), (memory.counted .getItem).counted .updateItem, (environment.now e).2)) ∨
    ∃ merged joined updated, Counters.merge stored counters path? = .ok merged ∧
      Joined table.layout item data (Counters.nest path? counters) merged (environment.now e).1 joined updated ∧
      environment.host.command pages (table.accumulate key counters path?) (memory, e) =
        some ((itemJson updated).map table.dataAnswer,
          ((memory.counted .getItem).counted .updateItem).store table.layout key updated,
          (environment.now e).2) := by
  have hfound := TableLayout.dataOf?_eq_some_iff.1 hdata
  have houtcome := Counters.outcome (hordered.inner hfound) hstored hcounters hnames [table.layout.dataName]
  generalize hmerge : Counters.merge stored counters path? = merge at houtcome
  cases houtcome with
  | refused hnone he hfree =>
    exact Or.inl ⟨_, he, hnone, hfree,
      command_accumulate_refused environment pages e hitem hdata hstored hmerge⟩
  | blocked hjoin hset he hblocked =>
    have happly := apply_set_data_fails hmark (environment.now e).1 hfound hset
    exact Or.inr (Or.inl ⟨_, he, hblocked,
      command_accumulate_failed environment pages e hitem hdata hstored hmerge happly⟩)
  | joined hjoin hset hfree =>
    obtain ⟨updated, happly, hjoined⟩ := exists_joined hmark hordered hdata
      (Attribute.readable_map_iff_toJsonMap.2 ⟨stored, hstored⟩) hcounters hjoin hset hfree (environment.now e).1
    exact Or.inr (Or.inr ⟨_, _, updated, rfl, hjoined,
      command_accumulate_applied environment pages e hitem hdata hstored hmerge happly⟩)

include hread

/-- Accumulating counters at an item that is there, whose data may be empty, succeeds if and only if they do not clash
with the data and the other attributes can be read, unless the data are empty and the counters hold a map with
something in it. Only then does the store refuse the update, for the path of what is in the map. -/
theorem accumulate_ok_iff : ∃ result memory' e',
    environment.host.command pages (table.accumulate key counters path?) (memory, e) =
      some (result, memory', e') ∧
    ((∃ json, result = .ok json) ↔ ¬ Counters.Clashes (.map data) (.map (Counters.nest path? counters)) ∧
      ¬ Counters.Blocked data (Counters.nest path? counters) ∧ table.layout.OthersReadable item) ∧
    (∀ failure, result = .error (.store failure) →
      failure.InvalidPath ∧ Counters.Blocked data (Counters.nest path? counters)) ∧
    (Counters.Blocked data (Counters.nest path? counters) → ∃ failure, result = .error (.store failure)) := by
  obtain ⟨stored, hstored⟩ := Attribute.readable_map_iff_toJsonMap.1 hread
  rcases accumulate_run hmark hitem hordered hdata hcounters hnames environment pages e hstored with
    ⟨failure, he, hnone, hfree, hrun⟩ | ⟨failure, he, hblocked, hrun⟩ | ⟨merged, joined, updated, -, h, hrun⟩
  · refine ⟨_, _, _, hrun, ?_, ?_, fun hblocked => absurd hblocked hfree⟩
    · exact iff_of_false (fun ⟨json, hjson⟩ => nomatch hjson) fun ⟨hfits, _⟩ =>
        hfits ((Counters.clashes_iff hcounters).2 hnone)
    · rintro failure hfailure
      cases hfailure
      cases he
  · refine ⟨_, _, _, hrun, ?_, ?_, fun _ => ⟨_, rfl⟩⟩
    · exact iff_of_false (fun ⟨json, hjson⟩ => nomatch hjson) fun ⟨_, hfree, _⟩ => hfree hblocked
    · rintro failure hfailure
      cases hfailure
      exact ⟨he, hblocked⟩
  · refine ⟨_, _, _, hrun, ?_, ?_, fun hblocked => absurd hblocked h.free⟩
    · rw [itemJson_map_eq_ok_iff, h.others, Counters.clashes_iff hcounters, h.join]
      exact ⟨fun hothers => ⟨nofun, h.free, hothers⟩, fun ⟨_, _, hothers⟩ => hothers⟩
    · intro failure hfailure
      cases hresult : itemJson updated with
      | ok read =>
        rw [hresult] at hfailure
        cases hfailure
      | error other =>
        obtain ⟨text, rfl⟩ := itemJson_error hresult
        rw [hresult] at hfailure
        cases hfailure

/-- Accumulating counters at an item that has data leaves in the place of the data what joins the counters to them,
sets the time and leaves the rest of the item. It answers with the data as they are then, as long as the rest can be
read. If the counters cannot be joined the call fails before anything is written. -/
theorem accumulate_joins (htime : table.layout.dataName ≠ updatedName) (hne : data ≠ []) :
    match Counters.joinEntries data (Counters.nest path? counters) with
    | some joined => ∃ result json,
      environment.host.command pages (table.accumulate key counters path?) (memory, e) =
        some (result, ((memory.counted .getItem).counted .updateItem).store table.layout key
          (table.layout.withData item joined (environment.now e).1), (environment.now e).2) ∧
      (Attribute.map joined).toJson = .ok json ∧
      (table.layout.OthersReadable item → result = .ok json) ∧
      (¬ table.layout.OthersReadable item → ∃ text, result = .error (.invalidValue (.notANumber text)))
    | none => ∃ failure, Counters.Refusal failure ∧
      environment.host.command pages (table.accumulate key counters path?) (memory, e) =
        some (.error failure, memory.counted .getItem, e) := by
  obtain ⟨stored, hstored⟩ := Attribute.readable_map_iff_toJsonMap.1 hread
  rcases accumulate_run hmark hitem hordered hdata hcounters hnames environment pages e hstored with
    ⟨failure, he, hnone, -, hrun⟩ | ⟨failure, -, hblocked, -⟩ | ⟨merged, joined, updated, -, h, hrun⟩
  · rw [hnone]
    exact ⟨failure, he, hrun⟩
  · exact absurd hblocked.1 hne
  · rw [h.join]
    obtain ⟨read, hjoined⟩ := Attribute.readable_map_iff_toJsonMap.1 h.readable
    cases h.place (Or.inr htime)
    have hanswer : (itemJson (table.layout.withData item joined (environment.now e).1)).map table.dataAnswer = _ :=
      itemJson_dataAnswer (Assoc.find?_insert_self _ _ _) hjoined
    refine ⟨_, .map read, hrun, Attribute.toJson_map_eq_ok.2 ⟨read, hjoined, rfl⟩, fun hothers => ?_,
      fun hothers => ?_⟩
    · obtain ⟨json, hjson⟩ := h.others.2 hothers
      rw [hanswer, show itemJson _ = .ok json from hjson]
      rfl
    · cases hresult : itemJson (table.layout.withData item joined (environment.now e).1) with
      | ok json => exact absurd (h.others.1 ⟨json, hresult⟩) hothers
      | error failure =>
        obtain ⟨text, rfl⟩ := itemJson_error hresult
        exact ⟨text, rfl⟩

end Items

/-! ## Visits of a page -/

/-- The visits of a page, with the data kept under another name. -/
def visitsUnder (dataName : String) : Table := { layout := { table := "visits", dataName := dataName } }

def newPage : Item := visits.layout.newItem homePage [] "1970-01-01T00:00:00Z"

theorem accumulate_ok_iff_newPage :
    (∃ failure memory', Environment.still.host.command 1
        (visits.accumulate homePage (visitsFrom "fr" 2 wordRange_two) none)
        (({} : Memory).store visits.layout homePage newPage, ()) = some (.error (.store failure), memory') ∧
      failure.InvalidPath) ∧
    ∃ json memory', Environment.still.host.command 1
      (visits.accumulate homePage [("seen", .number (.integer 2 wordRange_two))] none)
      (({} : Memory).store visits.layout homePage newPage, ()) = some (.ok json, memory') := by
  have hitem := Memory.item?_store_self {} visits.layout homePage newPage
  have hempty : (Attribute.map []).Ordered :=
    Attribute.ordered_map List.Pairwise.nil fun _ _ hvalue => nomatch hvalue
  obtain ⟨hordered, hreadable⟩ := ordered_readable_newItem visits.layout homePage hempty ⟨_, rfl⟩
    "1970-01-01T00:00:00Z"
  have hleaf : (Json.number (.integer 2 wordRange_two)).Ordered := Json.ordered_of_not_map fun _ he => by cases he
  constructor
  · obtain ⟨result, memory', e', hrun, -, hpath, hblocked⟩ := accumulate_ok_iff (by decide) hitem hordered rfl
      ⟨_, rfl⟩ (show (Json.map (Counters.nest none (visitsFrom "fr" 2 wordRange_two))).Ordered from
        (hleaf.single "fr").single "by")
      (named_visitsFrom 2 wordRange_two (by decide) (by decide)) Environment.still 1 ()
    obtain ⟨failure, rfl⟩ := hblocked ⟨rfl, _, List.mem_cons_self, _, _, rfl⟩
    exact ⟨failure, _, hrun, (hpath failure rfl).1⟩
  · have hnames : (Json.map [("seen", .number (.integer 2 wordRange_two))]).Named Unmarked :=
      Json.Named.single (Json.named_of_not_map fun _ he => by cases he) (by decide)
    obtain ⟨result, memory', e', hrun, hok, -⟩ := accumulate_ok_iff (by decide) hitem hordered rfl ⟨_, rfl⟩
      (show (Json.map (Counters.nest none [("seen", .number (.integer 2 wordRange_two))])).Ordered from
        hleaf.single "seen") hnames Environment.still 1 ()
    have hfits : ¬ Counters.Clashes (.map []) (.map [("seen", .number (.integer 2 wordRange_two))]) := by
      rw [Counters.clashes_iff (hleaf.single "seen")]
      exact fun hnone => nomatch hnone
    have hfree : ¬ Counters.Blocked [] [("seen", .number (.integer 2 wordRange_two))] := by
      rintro ⟨-, entry, hentry, first, rest, hvalue⟩
      cases List.mem_singleton.1 hentry
      cases hvalue
    obtain ⟨json, rfl⟩ := hok.2 ⟨hfits, hfree, fun entry hentry _ _ =>
      Attribute.readable_map_iff.1 hreadable entry hentry⟩
    exact ⟨json, _, hrun⟩

theorem accumulate_joins_visits : ∃ json,
    Environment.still.host.command 1
        (visits.accumulate homePage [("fr", .number (.integer 2 wordRange_two))] (some "by"))
        (({} : Memory).store visits.layout homePage (homeItem "5" "1"), ()) =
      some (.ok json, (((({} : Memory).store visits.layout homePage (homeItem "5" "1")).counted .getItem).counted
        .updateItem).store visits.layout homePage
          (visits.layout.withData (homeItem "5" "1") (visitsOf "7") "1970-01-01T00:00:00Z"), ()) ∧
    (Attribute.map (visitsOf "7")).toJson = .ok json := by
  have hitem := Memory.item?_store_self {} visits.layout homePage (homeItem "5" "1")
  have hleaf : (Json.number (.integer 2 wordRange_two)).Ordered := Json.ordered_of_not_map fun _ he => by cases he
  have hjoins := accumulate_joins (by decide) hitem (homeItem_ordered "5" "1") rfl ⟨_, rfl⟩
    (show (Json.map (Counters.nest (some "by") [("fr", .number (.integer 2 wordRange_two))])).Ordered from
      (hleaf.single "fr").single "by")
    (named_visitsFrom 2 wordRange_two (by decide) (by decide)) Environment.still 1 () (by decide)
    (List.cons_ne_nil _ _)
  rw [show Counters.joinEntries (visitsOf "5") _ = some (visitsOf "7") from rfl] at hjoins
  obtain ⟨result, json, hrun, hjson, hok, -⟩ := hjoins
  cases hok fun entry hentry _ _ =>
    Attribute.readable_map_iff.1 (show (Attribute.map (homeItem "5" "1")).Readable from ⟨_, rfl⟩) entry hentry
  exact ⟨json, hrun, hjson⟩

/-- Beside an attribute that cannot be read the data are written, but the answer is a failure. Data under the name of
the time give way to it, and data under a marked name are not what is set. -/
theorem accumulate_unjoined :
    (Attribute.map (visitsOf "5")).Readable ∧
    Counters.joinEntries (visitsOf "5") (visitsFrom "fr" 2 wordRange_two) = some (visitsOf "7") ∧
    Counters.joinEntries (visitsOf "5") [] = some (visitsOf "5") ∧
    (∃ memory', Environment.still.host.command 1
        (visits.accumulate homePage (visitsFrom "fr" 2 wordRange_two) none)
        (({} : Memory).store visits.layout homePage (homeItem "5" "1e400"), ()) =
        some (.error (.invalidValue (.notANumber "1e400")), memory', ()) ∧
      memory'.item? visits.layout homePage =
        some (visits.layout.withData (homeItem "5" "1e400") (visitsOf "7") "1970-01-01T00:00:00Z")) ∧
    (∃ json memory' item, Environment.still.host.command 1 ((visitsUnder "updatedAt").accumulate homePage [] none)
        (({} : Memory).store visits.layout homePage
          ((visitsUnder "updatedAt").layout.newItem homePage (visitsOf "5") ""), ()) =
        some (.ok json, memory', ()) ∧
      memory'.item? visits.layout homePage = some item ∧
      Assoc.find? item "updatedAt" = some (.string "1970-01-01T00:00:00Z")) ∧
    ∃ json memory' item, Environment.still.host.command 1
        ((visitsUnder "data:$").accumulate homePage (visitsFrom "fr" 2 wordRange_two) none)
        (({} : Memory).store visits.layout homePage
          ((visitsUnder "data:$").layout.newItem homePage (visitsOf "5") ""), ()) =
        some (.ok json, memory', ()) ∧
      memory'.item? visits.layout homePage = some item ∧
      (visitsUnder "data:$").layout.dataOf? item = some (visitsOf "5") :=
  ⟨⟨_, rfl⟩, rfl, rfl, ⟨_, rfl, rfl⟩, ⟨_, _, _, rfl, rfl, rfl⟩, _, _, _, rfl, rfl, rfl⟩

end Table

end KeyedRecords
