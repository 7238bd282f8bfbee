import KeyedRecords.Proofs.Query.Filter
import KeyedRecords.Proofs.Query.Paging
import KeyedRecords.Proofs.Records.Reached

/-! What filters select from a store that records have come to: the records whose keys the query of the filters
accepts. These are listed, and these are deleted. Each has the value of every filter that is pinned, and the
other filters on fields of the keys are never looked at. Main statements: `Represents.selected`,
`filters_select`. -/

namespace KeyedRecords

namespace Records

variable {ρ ε : Type} {records : Records ρ}

/-! ## The query of some filters -/

def partitionQuery (records : Records ρ) (partition : String) (sort? : Option SortCondition) :
    BoundQuery where
  layout := records.model.layout
  index? := none
  partitionName := records.model.layout.partitionName
  partition := partition
  sortName := records.model.layout.sortName
  sort? := sort?
  limit := 25
  ascending := false
  projection := []
  startKey? := none

theorem queryFor_bind {filters : Arguments} {query : Query} (h : records.queryFor filters = .ok query) :
    ∃ translated partition sort?, records.model.filterRules.toQuery filters = .ok translated ∧
      query.bind records.model.layout = .ok (records.partitionQuery partition sort?) ∧
      translated.partition? = some partition ∧ (filters ≠ [] → translated.sort? = sort?) := by
  obtain ⟨translated, htranslated, h⟩ := bind_eq_ok.1 h
  obtain ⟨filter, found, -, -, -, rfl⟩ := FilterRules.toQuery_eq_ok.1 htranslated
  refine ⟨_, found.partition, query.sort?, htranslated, ?_⟩
  cases hstart : records.model.listingStart? with
  | none =>
    rw [hstart] at h
    cases h
    exact ⟨rfl, rfl, fun _ => rfl⟩
  | some start =>
    rw [hstart] at h
    by_cases hempty : filters.isEmpty = true
    · simp only [if_pos hempty] at h
      cases h
      exact ⟨rfl, rfl, fun hne => absurd (List.isEmpty_iff.1 hempty) hne⟩
    · simp only [if_neg hempty] at h
      cases h
      exact ⟨rfl, rfl, fun _ => rfl⟩

/-! ## What a query selects -/

section Selected

variable {map : RecordMap} {memory : Memory}

/-- A stored item reads as the record that the map has under its key. -/
theorem Represents.of_mem (h : records.Represents map memory) (hsorted : memory.Sorted) {key : Key}
    {item : Item} (hmem : (key, item) ∈ memory.contents records.model.layout.table) :
    ∃ value, Assoc.find? map key = some value ∧ records.Holds key item value := by
  have hitem : memory.item? records.model.layout key = some item :=
    Assoc.find?_of_mem (hsorted _).nodup hmem
  rcases h.lookup key with ⟨hnone, -⟩ | ⟨stored, value, hstored, hvalue, hholds⟩
  · cases hnone.symm.trans hitem
  · cases hstored.symm.trans hitem
    exact ⟨value, hvalue, hholds⟩

theorem selects_iff {key : Key} {item : Item} (hkey : records.model.layout.keyOf? item = some key)
    {partition : String} {sort? : Option SortCondition} :
    (records.partitionQuery partition sort?).Selects item ↔
      key.partition = partition ∧ ∀ condition ∈ sort?, condition.accepts key.sort = true := by
  obtain ⟨hpartition, hsort⟩ := TableLayout.keyOf?_eq_some_iff.1 hkey
  simp only [BoundQuery.Selects, BoundQuery.textOf?, partitionQuery, hpartition, hsort]
  cases sort? with
  | none => simp [Attribute.asString?]
  | some condition => simp [Attribute.asString?]

theorem selects_of_key (records : Records ρ) {partition : String} {key : Key} {item : Item}
    (hkey : records.model.layout.keyOf? item = some key) (hpartition : key.partition = partition) :
    (records.partitionQuery partition none).Selects item := (selects_iff hkey).2 ⟨hpartition, nofun⟩

/-- Reading the pages of a query brings the records of the map that the query selects. -/
theorem Represents.selected (environment : Environment ε) (hnames : records.model.layout.WellNamed)
    (h : records.Represents map memory) (hsorted : memory.Sorted) (partition : String)
    (sort? : Option SortCondition) : ∃ (listed : List (Key × Json.Map)) (items : List Item),
      (Assoc.keys listed).Nodup ∧
      (∀ key value, (key, value) ∈ listed ↔ Assoc.find? map key = some value ∧
        key.partition = partition ∧ ∀ condition ∈ sort?, condition.accepts key.sort = true) ∧
      items.map records.read = listed.map (fun entry => records.recordOf entry.2) ∧
      items.filterMap records.model.layout.keyOf? = Assoc.keys listed ∧
      ∀ wantsMore pages e, listed.length < pages → ∃ n after, after.tables = memory.tables ∧
        environment.host.command pages
          (Command.readPages (records.partitionQuery partition sort?) wantsMore) (memory, e) =
          some (.ok (items.take n, none), (after, e)) ∧
        (n < items.length → wantsMore (items.take n) = false) := by
  have hkeyed : records.model.layout.Keyed (memory.contents records.model.layout.table) := by
    intro key item hmem
    obtain ⟨value, -, hholds⟩ := h.of_mem hsorted hmem
    exact hholds.key
  obtain ⟨stored, hnodup, hmem, hkeys, hpages⟩ := BoundQuery.readPages_selected environment
    (records.partitionQuery partition sort?) hnames.keys (by show 1 ≤ 25; decide) rfl rfl hsorted hkeyed
  have hvalue : ∀ entry ∈ stored, ∃ value, Assoc.find? map entry.1 = some value ∧
      records.Holds entry.1 entry.2 value := by
    intro entry hentry
    exact h.of_mem hsorted (Assoc.mem_of_find? ((hmem entry.1 entry.2).1 hentry).1)
  have hlistedKeys : Assoc.keys (stored.map fun entry => (entry.1, (Assoc.find? map entry.1).getD [])) =
      Assoc.keys stored := by
    simp [Assoc.keys]
  refine ⟨stored.map fun entry => (entry.1, (Assoc.find? map entry.1).getD []), stored.map (·.2),
    hlistedKeys ▸ hnodup, ?_, ?_, ?_, ?_⟩
  · intro key value
    rw [List.mem_map]
    constructor
    · rintro ⟨⟨key, item⟩, hentry, heq⟩
      cases heq
      obtain ⟨value, hvalue, hholds⟩ := hvalue _ hentry
      exact ⟨by rw [hvalue]; rfl, (selects_iff hholds.key).1 ((hmem key item).1 hentry).2⟩
    · rintro ⟨hbound, hselects⟩
      rcases h.lookup key with ⟨-, hnone⟩ | ⟨item, held, hitem, hheld, hholds⟩
      · cases hnone.symm.trans hbound
      · refine ⟨(key, item), (hmem key item).2 ⟨hitem, (selects_iff hholds.key).2 hselects⟩, ?_⟩
        rw [hbound]
        rfl
  · rw [List.map_map, List.map_map]
    refine List.map_congr_left fun entry hentry => ?_
    obtain ⟨value, hvalue, hholds⟩ := hvalue entry hentry
    simp only [Function.comp, hvalue, Option.getD_some, hholds.read]
  · rw [hlistedKeys]
    exact hkeys
  · intro wantsMore pages e hlimit
    obtain ⟨n, after, htables, hrun, hstop⟩ := hpages wantsMore pages e (by simpa using hlimit)
    exact ⟨n, after, htables, hrun, by simpa using hstop⟩

end Selected

end Records

/-! ## Listing and deleting -/

namespace Listing

variable {ρ σ : Type}

/-- Whether an outcome is listed: a record that the test keeps, or a failure. -/
def keeps (listing : Listing ρ) : Result ρ → Bool
  | .ok record => listing.keep record
  | .error _ => true

theorem outcomes_eq (listing : Listing ρ) (items : List Item) :
    listing.outcomes items = (items.map listing.records.read).filter listing.keeps :=
  List.filter_congr fun outcome _ => by cases outcome <;> rfl

theorem outcomes_take (listing : Listing ρ) (items : List Item) (n : Nat) :
    listing.outcomes items = listing.outcomes (items.take n) ++ listing.outcomes (items.drop n) := by
  rw [outcomes_eq, outcomes_eq, outcomes_eq, ← List.filter_append, ← List.map_append,
    List.take_append_drop]

variable {host : Host σ} {pages : Nat} {listing : Listing ρ} {items : List Item} {state after : σ} {n : Nat}

/-- However far the pages were read for it, a stream lists what they hold in all. -/
theorem stream_eq {count? : Option Nat}
    (hread : host.command pages (Command.readPages listing.query fun items =>
      count?.all ((listing.outcomes items).length < ·)) state = some (.ok (items.take n, none), after))
    (hstop : n < items.length →
      count?.all ((listing.outcomes (items.take n)).length < ·) = false)
    (hwants : count?.all ((listing.outcomes []).length < ·) = true) :
    host.command pages (listing.stream count?) state =
      some (.ok (count?.elim (listing.outcomes items) (listing.outcomes items).take), after) := by
  have hall : items.length ≤ n → items.take n = items := List.take_of_length_le
  simp only [stream, hwants, if_true]
  rw [Host.command_bind_ok _ _ hread]
  show some (Except.ok (count?.elim (listing.outcomes (items.take n) ++ [])
    (listing.outcomes (items.take n) ++ []).take), after) = _
  rw [List.append_nil]
  cases count? with
  | none => rw [hall (Nat.le_of_not_lt fun hn => nomatch hstop hn)]
  | some count =>
    by_cases hn : n < items.length
    · have hcount : count ≤ (listing.outcomes (items.take n)).length := by simpa using hstop hn
      rw [listing.outcomes_take items n]
      simp only [Option.elim_some, List.take_append_of_le_length hcount]
    · rw [hall (Nat.le_of_not_lt hn)]

/-- Only a stream of no records at all asks for no page. -/
theorem stream_idle {count? : Option Nat}
    (hidle : count?.all ((listing.outcomes []).length < ·) = false) (outcomes : List (Result ρ)) :
    host.command pages (listing.stream count?) state =
      some (.ok (count?.elim outcomes outcomes.take), state) := by
  cases count? with
  | none => cases hidle
  | some count =>
    have hzero : count = 0 := by simpa [outcomes_eq] using hidle
    subst hzero
    rfl

/-- What is collected fails with the first failure there is, though the pages after it were not read. -/
theorem collect_eq
    (hread : host.command pages (Command.readPages listing.query fun items =>
      ((listing.outcomes items).mapM id : Result (List ρ)).isOk) state =
        some (.ok (items.take n, none), after))
    (hstop : n < items.length →
      ((listing.outcomes (items.take n)).mapM id : Result (List ρ)).isOk = false) :
    host.command pages listing.collect state =
      some (((listing.outcomes items).mapM id : Result (List ρ)), after) := by
  simp only [collect]
  rw [Host.command_bind_ok _ _ hread]
  dsimp only
  by_cases hn : n < items.length
  · have hfailed := hstop hn
    rw [listing.outcomes_take items n, List.mapM_append]
    cases hfirst : ((listing.outcomes (items.take n)).mapM id : Result (List ρ)) with
    | error failure => rfl
    | ok records =>
      rw [hfirst] at hfailed
      cases hfailed
  · rw [List.take_of_length_le (Nat.le_of_not_lt hn)]
    cases ((listing.outcomes items).mapM id : Result (List ρ)) <;> rfl

end Listing

namespace Records

variable {ρ ε : Type} {records : Records ρ}

/-- Whether some records of a store are the ones that a listing brings, to a stream or collected, and that
deleting by the same filters removes. The readers come to an end if they may read as many pages as there are
records, and one more. -/
structure Selection (records : Records ρ) (environment : Environment ε) (map : RecordMap) (memory : Memory)
    (filters : Arguments) (listing : Listing ρ) (listed : List (Key × Json.Map)) : Prop where
  nodup : (Assoc.keys listed).Nodup
  bound : ∀ key value, (key, value) ∈ listed → Assoc.find? map key = some value
  stream : ∀ pages e, listed.length < pages → ∀ count?, ∃ after : Memory, after.tables = memory.tables ∧
    environment.host.command pages (listing.stream count?) (memory, e) =
      some (.ok (count?.elim id List.take
        ((listed.map fun entry => records.recordOf entry.2).filter listing.keeps)), (after, e))
  collect : ∀ pages e, listed.length < pages → ∃ after : Memory, after.tables = memory.tables ∧
    environment.host.command pages listing.collect (memory, e) =
      some (((listed.map fun entry => records.recordOf entry.2).filter listing.keeps).mapM id, (after, e))
  deleteAll : ∀ pages e, listed.length < pages → ∃ rest after,
    environment.host.command pages (records.deleteAll filters) (memory, e) =
      some (.ok listed.length, (after, e)) ∧
    records.Represents rest after ∧
    ∀ key, Assoc.find? rest key = if key ∈ Assoc.keys listed then none else Assoc.find? map key

theorem list_eq_ok {filters : Arguments} {keep : ρ → Bool} {listing : Listing ρ}
    (h : records.list filters keep = .ok listing) : ∃ query bound, records.queryFor filters = .ok query ∧
      query.bind records.model.layout = .ok bound ∧ listing = ⟨records, bound, keep⟩ := by
  obtain ⟨query, hquery, h⟩ := bind_eq_ok.1 h
  obtain ⟨bound, hbound, h⟩ := bind_eq_ok.1 h
  cases h
  exact ⟨query, bound, hquery, hbound, rfl⟩

/-- Deleting by filters deletes the keys of the items that their query reads. -/
theorem command_deleteAll {σ : Type} {host : Host σ} {pages : Nat} {filters : Arguments} {query : Query}
    {bound : BoundQuery} {items : List Item} {state after : σ} (hquery : records.queryFor filters = .ok query)
    (hbound : query.bind records.model.layout = .ok bound)
    (hread : host.command pages (Command.readPages bound fun _ => true) state =
      some (.ok (items, none), after)) :
    host.command pages (records.deleteAll filters) state =
      host.command pages (records.deleteKeys (items.filterMap records.model.layout.keyOf?)) after := by
  rw [Records.deleteAll, hquery, Host.command_ok_bind, hbound, Host.command_ok_bind,
    Host.command_bind_ok _ _ hread]

section Select

variable {map : RecordMap} {memory : Memory} {filters : Arguments}

/-- Deleting what was read, when each item is under a key of its own, unbinds these keys. -/
theorem deleteAll_of_read (environment : Environment ε) {between : Memory}
    (h : records.Represents map between) {query : Query} {bound : BoundQuery}
    (hquery : records.queryFor filters = .ok query) (hbound : query.bind records.model.layout = .ok bound)
    {pages : Nat} {e : ε} {items : List Item}
    (hrun : environment.host.command pages (Command.readPages bound fun _ => true) (memory, e) =
      some (.ok (items, none), (between, e))) {listed : List (Key × Json.Map)}
    (hkeys : items.filterMap records.model.layout.keyOf? = Assoc.keys listed)
    (hnodup : (Assoc.keys listed).Nodup)
    (hmem : ∀ key value, (key, value) ∈ listed → Assoc.find? map key = some value) : ∃ rest after,
      environment.host.command pages (records.deleteAll filters) (memory, e) =
        some (.ok listed.length, (after, e)) ∧
      records.Represents rest after ∧
      ∀ key, Assoc.find? rest key = if key ∈ Assoc.keys listed then none else Assoc.find? map key := by
  obtain ⟨after, hdeleted, hafter⟩ :=
    deleteKeys_simulates environment pages h e (Assoc.keys listed)
  have hcount : (RecordMap.deleteKeys (Assoc.keys listed) map).1 = listed.length := by
    rw [RecordMap.deleteKeys_count hnodup, Assoc.keys, List.length_map]
    intro key hkey
    obtain ⟨⟨own, value⟩, hentry, rfl⟩ := List.mem_map.1 hkey
    rw [Assoc.contains, hmem own value hentry]
    rfl
  refine ⟨_, after, ?_, hafter, RecordMap.find?_deleteKeys (Assoc.keys listed) map⟩
  rw [command_deleteAll hquery hbound hrun, hkeys, hdeleted, hcount]

/-- The records that a listing brings are those whose keys its query accepts. -/
theorem list_selection (environment : Environment ε) (hnames : records.model.layout.WellNamed)
    (h : records.Represents map memory) (hsorted : memory.Sorted) {keep : ρ → Bool} {listing : Listing ρ}
    (hlist : records.list filters keep = .ok listing) : ∃ translated partition sort? listed,
      records.model.filterRules.toQuery filters = .ok translated ∧
      translated.partition? = some partition ∧ (filters ≠ [] → translated.sort? = sort?) ∧
      (∀ key value, (key, value) ∈ listed ↔ Assoc.find? map key = some value ∧
        key.partition = partition ∧ ∀ condition ∈ sort?, condition.accepts key.sort = true) ∧
      records.Selection environment map memory filters listing listed := by
  obtain ⟨query, bound, hquery, hbound, rfl⟩ := list_eq_ok hlist
  obtain ⟨translated, partition, sort?, htranslated, hbind, hpartition, hsort⟩ := queryFor_bind hquery
  cases hbound.symm.trans hbind
  obtain ⟨listed, items, hnodup, hmem, hread, hkeys, hpages⟩ :=
    h.selected environment hnames hsorted partition sort?
  have hlength : items.length = listed.length := by simpa using congrArg List.length hread
  have houtcomes : Listing.outcomes ⟨records, records.partitionQuery partition sort?, keep⟩ items =
      (listed.map fun entry => records.recordOf entry.2).filter
        (Listing.keeps ⟨records, records.partitionQuery partition sort?, keep⟩) := by
    rw [Listing.outcomes_eq, hread]
  refine ⟨translated, partition, sort?, listed, htranslated, hpartition, hsort, hmem, hnodup,
    fun key value hlisted => ((hmem key value).1 hlisted).1, ?_, ?_, ?_⟩
  · intro pages e hlimit count?
    cases hwants : count?.all ((Listing.outcomes
        ⟨records, records.partitionQuery partition sort?, keep⟩ []).length < ·) with
    | false =>
      refine ⟨memory, rfl, ?_⟩
      rw [Listing.stream_idle hwants]
      cases count? <;> rfl
    | true =>
      obtain ⟨n, after, htables, hrun, hstop⟩ := hpages _ pages e hlimit
      refine ⟨after, htables, ?_⟩
      rw [Listing.stream_eq hrun hstop hwants, houtcomes]
      cases count? <;> rfl
  · intro pages e hlimit
    obtain ⟨n, after, htables, hrun, hstop⟩ := hpages _ pages e hlimit
    refine ⟨after, htables, ?_⟩
    rw [Listing.collect_eq hrun hstop, houtcomes]
  · intro pages e hlimit
    obtain ⟨n, between, htables, hrun, hstop⟩ := hpages (fun _ => true) pages e hlimit
    rw [List.take_of_length_le (Nat.le_of_not_lt fun hn => nomatch hstop hn)] at hrun
    exact deleteAll_of_read environment (h.congr htables) hquery hbound hrun hkeys hnodup
      fun key value hlisted => ((hmem key value).1 hlisted).1

end Select

/-! ## Pinned and ignored filters -/

/-- Whether two sets of filters list alike and delete alike, on every store. -/
def SelectAlike (records : Records ρ) (filters other : Arguments) : Prop :=
  (∀ keep, records.list filters keep = records.list other keep) ∧
    records.deleteAll filters = records.deleteAll other

theorem selectAlike_of_queryFor {filters other : Arguments}
    (h : records.queryFor filters = records.queryFor other) : records.SelectAlike filters other := by
  refine ⟨fun keep => ?_, ?_⟩
  · simp only [list, h]
  · simp only [deleteAll, h]

/-- Filters with one query select alike, unless only one of them is no filter at all and listings start
somewhere. -/
theorem selectAlike_of_toQuery {filters other : Arguments}
    (h : records.model.filterRules.toQuery filters = records.model.filterRules.toQuery other)
    (hempty : records.model.listingStart? = none ∨ filters ≠ [] ∧ other ≠ []) :
    records.SelectAlike filters other := by
  refine selectAlike_of_queryFor ?_
  simp only [queryFor, h]
  rcases hempty with hstart | ⟨hfilters, hother⟩
  · simp only [hstart]
  · have hfilters : filters.isEmpty = false := by simpa using hfilters
    have hother : other.isEmpty = false := by simpa using hother
    simp only [hfilters, hother]

/-- From every store that records come to, what filters list and what they delete are records with the value
of every filter that is pinned. Filters on fields of the keys that are not pinned are accepted and ignored: with
any other value, and where they are null or no part of the sort key also without them, the filters select
alike. -/
theorem filters_pinned_or_ignored {environment : Environment ε} {words : Vocabulary} {keys : KeyTemplate}
    {memory : Memory} (hdistinct : records.model.schema.Distinct)
    (hnames : records.model.layout.WellNamed)
    (hmark : ¬ replaceMark.toList <:+ records.model.layout.dataName.toList)
    (htemplated : Templated records.model keys) (hreadable : keys.Readable words)
    (hreached : records.Reached environment words keys memory) {filters : Arguments}
    (hsorted : Assoc.Sorted filters) (hwords : words.Admits keys.fields filters) {keep : ρ → Bool}
    {listing : Listing ρ} (hlist : records.list filters keep = .ok listing) {filter : KeyFilter}
    (hparse : records.model.filterRules.parse filters = .ok filter) :
    (∃ map listed, records.Represents map memory ∧
      records.Selection environment map memory filters listing listed ∧
      ∀ key value, (key, value) ∈ listed → ∀ name, filter.Pins keys name →
        Arguments.segment? value name = filters.segment? name) ∧
    ∀ name value, records.model.filterRules.NamesField name → Assoc.find? filters name = some value →
      ¬ filter.Pins keys name →
        (∀ other : Json, (name ∈ keys.sort.fields → other.isNull = value.isNull) →
          records.SelectAlike (Assoc.insert filters name other) filters) ∧
        (keys.sort.fields ≠ [] → (name ∈ keys.sort.fields → value.isNull = true) →
          (records.model.listingStart? = none ∨ Assoc.erase filters name ≠ []) →
          records.SelectAlike (Assoc.erase filters name) filters) := by
  have hkeys : records.model.filterRules.keys = keys.strategy := htemplated.strategy
  have hfiled := hreached.filed hdistinct hnames hmark htemplated hreadable
  obtain ⟨map, hmap, hkeyed⟩ := hfiled.records
  constructor
  · obtain ⟨translated, partition, sort?, listed, htranslated, hpartition, hsort, hmem, hselection⟩ :=
      list_selection environment hnames hmap hfiled.sorted hlist
    refine ⟨map, listed, hmap, hselection, fun key value hlisted name hpins => ?_⟩
    obtain ⟨hbound, rfl, haccepted⟩ := (hmem key value).1 hlisted
    obtain ⟨hkey, hvalue⟩ := hkeyed key value hbound
    obtain ⟨given, hgiven⟩ := FilterRules.pinned_given hkeys hparse htranslated hpins
    have hne : filters ≠ [] := by
      rintro rfl
      cases (FilterRules.find?_of_keyArguments hsorted.nodup hparse hgiven).2
    exact FilterRules.toQuery_pinned hkeys hreadable hsorted hwords hparse htranslated hvalue hkey
      hpartition (fun condition hcondition => haccepted condition (hsort hne ▸ hcondition)) hpins
  · intro name value hname hvalue hpins
    have hne : filters ≠ [] := by
      rintro rfl
      cases hvalue
    constructor
    · intro other hnull
      refine selectAlike_of_toQuery
        (FilterRules.toQuery_insert hname hsorted hvalue hparse hkeys hpins hnull) (Or.inr ⟨?_, hne⟩)
      intro hnil
      have hself := Assoc.find?_insert_self filters name other
      rw [hnil] at hself
      cases hself
    · intro hfields hnull hempty
      exact selectAlike_of_toQuery
        (FilterRules.toQuery_erase hname hsorted hvalue hparse hkeys hpins hfields hnull)
        (hempty.imp_right fun h => ⟨h, hne⟩)

def visitKeys : KeyTemplate where
  model := "Visit"
  partition := ⟨"SITE#\x7bsite\x7d", [.literal "SITE#", .field "site"]⟩
  sort := ⟨"VISIT#\x7bdate\x7d#\x7bid\x7d", [.literal "VISIT#", .field "date", .literal "#", .field "id"]⟩

def visits : Records Json where
  model := {
    name := "Visit"
    qualified := "app::Visit"
    layout := { table := "visits" }
    schema := [⟨"id", .text, .optional⟩, ⟨"date", .text, .required⟩, ⟨"site", .text, .required⟩]
    keys := visitKeys.strategy
    listingStart? := none }
  form := {
    toJson := id
    ofJson := .ok
    id? := fun value => (value.asMap?.bind fun entries => Assoc.find? entries "id").bind Json.asString? }

/-- The texts that a date is told apart from what follows it by; the other fields may hold any. -/
def plainDates : Vocabulary := fun name text => name = "date" → '#' ∉ text.toList

theorem visitKeys_readable : visitKeys.Readable plainDates := by
  refine ⟨⟨fun h => absurd rfl h, trivial⟩, fun _ => ?_, fun h => absurd rfl h, trivial⟩
  exact delimited_of_not_mem fun text htext => htext rfl

def visitCalls : List (RecordCall Json) :=
  [.create [("date", .string "d1"), ("id", .string "1"), ("site", .string "s1")],
    .create [("date", .string "d1"), ("id", .string "2"), ("site", .string "s1")]]

theorem performAll_visits : ∃ memory,
    visits.performAll Environment.still.host 1 visitCalls ({}, ()) =
      some ([.ok (.record (.map [("date", .string "d1"), ("id", .string "1"), ("site", .string "s1")])),
        .ok (.record (.map [("date", .string "d1"), ("id", .string "2"), ("site", .string "s1")]))],
        memory, ()) :=
  ⟨_, rfl⟩

theorem visitCalls_plain : ∀ call ∈ visitCalls, ∀ args,
    visits.WritesFrom Environment.still call args → plainDates.Admits visitKeys.fields args := by
  have hplain : ∀ id, plainDates.Admits visitKeys.fields
      [("date", .string "d1"), ("id", .string id), ("site", .string "s1")] := by
    intro id name _ text htext hdate
    subst hdate
    cases htext
    decide
  intro call hcall args hargs
  rcases List.mem_cons.1 hcall with rfl | hcall
  · obtain ⟨e, rfl⟩ := hargs
    exact hplain "1"
  · cases List.mem_singleton.1 hcall
    obtain ⟨e, rfl⟩ := hargs
    exact hplain "2"

/-- The visits to a site. The filter on the identifier is ignored as there is none on the date. -/
def siteFilters : Arguments := [("id", .string "2"), ("site", .string "s1")]

theorem filters_pinned_or_ignored_visits : ∃ memory results,
    visits.performAll Environment.still.host 1 visitCalls ({}, ()) = some (results, memory, ()) ∧
      (∃ map listed, visits.Represents map memory ∧
        visits.Selection Environment.still map memory siteFilters
          ⟨visits, visits.partitionQuery "SITE#s1" (some (.startingWith "VISIT#")), fun _ => true⟩ listed ∧
        ∀ key value, (key, value) ∈ listed → Arguments.segment? value "site" = .ok (some "s1")) ∧
      visits.SelectAlike [("id", .string "3"), ("site", .string "s1")] siteFilters := by
  obtain ⟨memory, hrun⟩ := performAll_visits
  have hreached : visits.Reached Environment.still plainDates visitKeys memory :=
    Reached.empty.performAll visitCalls_plain hrun
  have htemplated : Templated visits.model visitKeys := ⟨rfl, by decide, by decide⟩
  have hdistinct : visits.model.schema.Distinct := by
    simp [Schema.Distinct, visits, DistinctFields, FieldType.Distinct]
  have hnames : visits.model.layout.WellNamed := by constructor <;> decide
  have hsorted : Assoc.Sorted siteFilters := by
    unfold Assoc.Sorted
    decide
  have hwords : plainDates.Admits visitKeys.fields siteFilters := by
    intro name _ text htext hdate
    subst hdate
    cases htext
  have hparse : visits.model.filterRules.parse siteFilters =
      .ok { partition? := none, sort? := none, keyArguments := siteFilters } := rfl
  have hlist : visits.list siteFilters = .ok
      ⟨visits, visits.partitionQuery "SITE#s1" (some (.startingWith "VISIT#")), fun _ => true⟩ := rfl
  obtain ⟨⟨map, listed, hmap, hselection, hpinned⟩, hignored⟩ :=
    filters_pinned_or_ignored hdistinct hnames (by decide) htemplated visitKeys_readable hreached hsorted
      hwords hlist hparse
  have hid : visits.model.filterRules.NamesField "id" := ⟨by decide, by decide, by decide, by decide⟩
  refine ⟨memory, _, hrun, ⟨map, listed, hmap, hselection, fun key value hlisted => ?_⟩, ?_⟩
  · exact hpinned key value hlisted "site" (Or.inl ⟨rfl, by decide⟩)
  · refine (hignored "id" (.string "2") hid rfl ?_).1 (.string "3") fun _ => rfl
    rintro (⟨-, hpartition⟩ | ⟨hdate, -⟩)
    · revert hpartition
      decide
    · cases hdate

end Records

end KeyedRecords
