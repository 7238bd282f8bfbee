import KeyedRecords.Proofs.Counters.Increment
import KeyedRecords.Proofs.Table.Accumulating

/-! Two ways to count. An increment has the store add counters to the data of an item, an accumulation reads the data,
adds up and sets the sums. Where the data have all maps of the counters both come to joining them. Main statement:
`increment_accumulate_agree`. -/

namespace KeyedRecords

/-- Whether there is something in every map of a value. -/
def Json.Filled (value : Json) : Prop := value.Maps (· ≠ [])

namespace Counters

/-! ## What a merge brings of filled maps -/

theorem mergeValue_ne_none {value : Json} (hinner : ∀ inner, value = .map inner →
      ∀ {field stored merged}, mergeEntries field stored inner = .ok merged → merged ≠ [])
    (field : String) (stored : Json) : mergeValue field stored value ≠ .ok none := by
  intro h
  cases value with
  | map inner =>
    cases stored <;> simp only [mergeValue] at h <;> try cases h
    obtain ⟨merged, hmerged, h⟩ := bind_eq_ok.1 h
    cases merged with
    | nil => exact hinner inner rfl hmerged rfl
    | cons p rest => cases h
  | number added =>
    cases stored <;> simp only [mergeValue] at h <;> try cases h
    obtain ⟨total, -, h⟩ := bind_eq_ok.1 h
    cases h
  | _ => cases h

/-- The merge of counters whose maps are all filled brings something. -/
theorem mergeEntries_ne_nil {value : Json} (hordered : value.Ordered) (hfilled : value.Filled) {added : Json.Map}
    (hvalue : value = .map added) {parent : String} {stored merged : Json.Map}
    (h : mergeEntries parent stored added = .ok merged) : merged ≠ [] := by
  induction value using Json.tree_induction generalizing added parent stored merged with
  | leaf value hleaf => exact absurd hvalue (hleaf added)
  | map entries ih =>
    cases hvalue
    cases entries with
    | nil => exact absurd rfl (hfilled [] [] rfl)
    | cons entry rest =>
      have hentry : Assoc.find? (entry :: rest) entry.1 = some entry.2 :=
        Assoc.find?_of_mem hordered.sorted.nodup List.mem_cons_self
      rw [mergeEntries_cons] at h
      obtain ⟨out, hout, h⟩ := bind_eq_ok.1 h
      obtain ⟨others, -, h⟩ := bind_eq_ok.1 h
      cases h
      cases out with
      | some p => exact List.cons_ne_nil _ _
      | none =>
        exfalso
        unfold mergeEntry at hout
        split at hout
        · cases hout
        · obtain ⟨merged?, hmerged, hout⟩ := bind_eq_ok.1 hout
          cases merged? with
          | some found => cases hout
          | none =>
            refine mergeValue_ne_none (fun inner hinner => ?_) _ _ hmerged
            exact ih entry List.mem_cons_self (hordered.inner hentry) (hfilled.inner hentry) hinner

theorem merge_ne_nil {added : Json.Map} (hordered : (Json.map added).Ordered) (hfilled : (Json.map added).Filled)
    {stored merged : Json.Map} (h : merge stored added none = .ok merged) : merged ≠ [] := by
  unfold merge at h
  split at h
  · cases h
    exact hfilled [] added rfl
  · obtain ⟨entries, hentries, h⟩ := bind_eq_ok.1 h
    cases h
    exact Assoc.ofList_ne_nil (mergeEntries_ne_nil hordered hfilled rfl hentries)

end Counters

namespace Table

/-! ## Increments -/

section Increment

variable {table : Table} {key : Key} {counters : Json.Map} (hne : counters ≠ [])
  (hcounters : (Json.map counters).Ordered) (hnumeric : (Json.map counters).Numeric) {ε : Type}
  (environment : Environment ε) (pages : Nat) {memory : Memory} (e : ε) {item : Item}
  (hitem : memory.item? table.layout key = some item)

include hne hcounters hnumeric hitem

theorem command_increment_applied {updated : Item}
    (happly : (Update.add (Attribute.ofJsonMap [(table.layout.dataName, .map counters)])).apply item =
      .ok updated) :
    environment.host.command pages (table.increment key counters) (memory, e) =
      some (itemJson updated, (memory.counted .updateItem).store table.layout key updated, e) := by
  have hanswer := environment.answer_updateItem_checked e hitem
    (show Memory.check none (some item) key = .ok () from rfl) happly
  rw [increment_eq table key hne hcounters hnumeric]
  exact Host.command_ask_bind _ _ hanswer _

theorem command_increment_refused {failure : StoreError}
    (happly : (Update.add (Attribute.ofJsonMap [(table.layout.dataName, .map counters)])).apply item =
      .error failure) :
    environment.host.command pages (table.increment key counters) (memory, e) =
      some (.error (.store failure), memory.counted .updateItem, e) := by
  have hanswer := environment.answer_updateItem_refused e hitem
    (show Memory.check none (some item) key = .ok () from rfl) happly
  rw [increment_eq table key hne hcounters hnumeric]
  exact Host.command_ask_bind_error _ _ hanswer _

end Increment

/-- Counters are joined to an item in the place of its data. -/
theorem joinEntries_data {layout : TableLayout} {item data : Item}
    (hdata : Assoc.find? item layout.dataName = some (.map data)) (counters : Json.Map) :
    Counters.joinEntries item [(layout.dataName, .map counters)] =
      (Counters.joinEntries data counters).map fun joined => Assoc.insert item layout.dataName (.map joined) := by
  rw [Counters.joinEntries_cons, Counters.joinEntries, hdata]
  show ((Counters.joinEntries data counters).map Attribute.map).map _ = _
  rw [Option.map_map]
  rfl

/-! ## Both ways -/

/-- An increment and an accumulation by the same numbers, in filled maps that the data of the item have, both join them
to the data, or both fail before anything is written. Either answers as long as what it leaves can be read. -/
theorem increment_accumulate_agree {table : Table} (hmark : Unmarked table.layout.dataName) {key : Key}
    {memory : Memory} {item data : Item} (hitem : memory.item? table.layout key = some item)
    (hordered : (Attribute.map item).Ordered) (hdata : table.layout.dataOf? item = some data)
    (hread : (Attribute.map data).Readable) {counters : Json.Map} (hcounters : (Json.map counters).Ordered)
    (hnumeric : (Json.map counters).Numeric) (hnames : (Json.map counters).Named Unmarked)
    (hfilled : (Json.map counters).Filled) (hcovers : Covers (some (.map data)) (.map counters)) {ε : Type}
    (environment : Environment ε) (pages : Nat) (e : ε) :
    match Counters.joinEntries data counters with
    | some joined => ∃ result result',
      environment.host.command pages (table.increment key counters) (memory, e) =
        some (result, (memory.counted .updateItem).store table.layout key
          (Assoc.insert item table.layout.dataName (.map joined)), e) ∧
      environment.host.command pages (table.accumulate key counters none) (memory, e) =
        some (result', ((memory.counted .getItem).counted .updateItem).store table.layout key
          (table.layout.withData item joined (environment.now e).1), (environment.now e).2) ∧
      ((∃ json, result = .ok json) ↔ ∀ entry ∈ item, entry.1 ≠ table.layout.dataName → entry.2.Readable) ∧
      ((∃ json, result' = .ok json) ↔ table.layout.OthersReadable item)
    | none => ∃ failure failure',
      environment.host.command pages (table.increment key counters) (memory, e) =
        some (.error failure, memory.counted .updateItem, e) ∧
      environment.host.command pages (table.accumulate key counters none) (memory, e) =
        some (.error failure', memory.counted .getItem, e) := by
  have hfound := TableLayout.dataOf?_eq_some_iff.1 hdata
  have hne : counters ≠ [] := hfilled [] counters rfl
  have hadd := addEntries_joins (hcounters.single table.layout.dataName) (hnumeric.single table.layout.dataName)
    hordered (Covers.single (hfound ▸ hcovers))
  rw [joinEntries_data hfound] at hadd
  obtain ⟨stored, hstored⟩ := Attribute.readable_map_iff_toJsonMap.1 hread
  have hnested : (Json.map (Counters.nest none counters)).Ordered := hcounters
  rcases accumulate_run hmark hitem hordered hdata hnested hnames environment pages e hstored with
    ⟨failure, -, hnone, -, hrun⟩ | ⟨-, -, hblocked, -⟩ | ⟨merged, joined, updated, hmerge, h, hrun⟩
  · replace hnone : Counters.joinEntries data counters = none := hnone
    rw [hnone] at hadd ⊢
    obtain ⟨-, detail, happly⟩ := hadd.resolve_left fun ⟨_, hafter, _⟩ => nomatch hafter
    exact ⟨_, _, command_increment_refused hne hcounters hnumeric environment pages e hitem happly, hrun⟩
  · -- A map to enter is in the data, which are not empty then.
    obtain ⟨rfl, entry, hentry, first, rest, hvalue⟩ := hblocked
    have hmap := hcovers [entry.1] _ (by
      rw [Json.valueAt_map, Assoc.find?_of_mem hcounters.sorted.nodup hentry, hvalue]
      rfl)
    cases hmap
  · have hjoin : Counters.joinEntries data counters = some joined := h.join
    rw [hjoin] at hadd ⊢
    obtain ⟨after, hafter, happly⟩ := hadd.resolve_right fun ⟨hnone, _⟩ => nomatch hnone
    cases hafter
    cases h.place (Or.inl (Counters.merge_ne_nil hcounters hfilled hmerge))
    refine ⟨_, _, command_increment_applied hne hcounters hnumeric environment pages e hitem happly, hrun, ?_,
      itemJson_map_eq_ok_iff.trans h.others⟩
    show (Attribute.map (Assoc.insert item table.layout.dataName (.map joined))).Readable ↔ _
    rw [Attribute.readable_insert_iff hordered.sorted]
    exact and_iff_right h.readable

/-! ## Visits of a page -/

theorem filled_visitsFrom (country : String) (n : Int) (inRange : WordRange n) :
    (Json.map (visitsFrom country n inRange)).Filled := by
  intro path entries hentries
  rcases mapPath_of_visitsFrom hentries with rfl | rfl
  all_goals
    cases hentries
    exact List.cons_ne_nil _ _

theorem increments_visits : Increments (visitsOf "5") (visitsFrom "fr" 2 wordRange_two) :=
  increments_visitsFrom 2 wordRange_two fun node hnode => by
    cases hnode
    decide

theorem increment_accumulate_agree_visits : ∃ json json',
    Environment.still.host.command 1 (visits.increment homePage (visitsFrom "fr" 2 wordRange_two))
        (({} : Memory).store visits.layout homePage (homeItem "5" "1"), ()) =
      some (.ok json, ((({} : Memory).store visits.layout homePage (homeItem "5" "1")).counted .updateItem).store
        visits.layout homePage (homeItem "7" "1"), ()) ∧
    Environment.still.host.command 1 (visits.accumulate homePage (visitsFrom "fr" 2 wordRange_two) none)
        (({} : Memory).store visits.layout homePage (homeItem "5" "1"), ()) =
      some (.ok json', (((({} : Memory).store visits.layout homePage (homeItem "5" "1")).counted .getItem).counted
        .updateItem).store visits.layout homePage
          (visits.layout.withData (homeItem "5" "1") (visitsOf "7") "1970-01-01T00:00:00Z"), ()) := by
  have hitem := Memory.item?_store_self {} visits.layout homePage (homeItem "5" "1")
  have hreadable : (Attribute.map (homeItem "5" "1")).Readable := ⟨_, rfl⟩
  have hothers : ∀ entry ∈ homeItem "5" "1", entry.2.Readable := Attribute.readable_map_iff.1 hreadable
  have hagree := increment_accumulate_agree (by decide) hitem (homeItem_ordered "5" "1") rfl ⟨_, rfl⟩
    increments_visits.ordered increments_visits.integral.numeric
    (named_visitsFrom 2 wordRange_two (by decide) (by decide)) (filled_visitsFrom "fr" 2 wordRange_two)
    increments_visits.maps Environment.still 1 ()
  rw [show Counters.joinEntries (visitsOf "5") _ = some (visitsOf "7") from rfl] at hagree
  obtain ⟨result, result', hincrement, haccumulate, hok, hok'⟩ := hagree
  obtain ⟨json, rfl⟩ := hok.2 fun entry hentry _ => hothers entry hentry
  obtain ⟨json', rfl⟩ := hok'.2 fun entry hentry _ _ => hothers entry hentry
  exact ⟨json, json', hincrement, haccumulate⟩

/-- An increment beside an attribute that cannot be read fails, but is made. Data under a marked name are incremented,
while an accumulation leaves them. -/
theorem increment_accumulate_disagree :
    (∃ memory', Environment.still.host.command 1
        (visits.increment homePage (visitsFrom "fr" 2 wordRange_two))
        (({} : Memory).store visits.layout homePage (homeItem "5" "1e400"), ()) =
        some (.error (.invalidValue (.notANumber "1e400")), memory', ()) ∧
      memory'.item? visits.layout homePage = some (homeItem "7" "1e400")) ∧
    (∃ json memory' item, Environment.still.host.command 1
        ((visitsUnder "data:$").increment homePage (visitsFrom "fr" 2 wordRange_two))
        (({} : Memory).store visits.layout homePage
          ((visitsUnder "data:$").layout.newItem homePage (visitsOf "5") ""), ()) =
        some (.ok json, memory', ()) ∧
      memory'.item? visits.layout homePage = some item ∧
      (visitsUnder "data:$").layout.dataOf? item = some (visitsOf "7")) ∧
    ∃ json memory' item, Environment.still.host.command 1
        ((visitsUnder "data:$").accumulate homePage (visitsFrom "fr" 2 wordRange_two) none)
        (({} : Memory).store visits.layout homePage
          ((visitsUnder "data:$").layout.newItem homePage (visitsOf "5") ""), ()) =
        some (.ok json, memory', ()) ∧
      memory'.item? visits.layout homePage = some item ∧
      (visitsUnder "data:$").layout.dataOf? item = some (visitsOf "5") := by
  have hunreadableItem := Memory.item?_store_self {} visits.layout homePage (homeItem "5" "1e400")
  have hunreadable := command_increment_applied increments_visits.nonempty increments_visits.ordered
    increments_visits.integral.numeric Environment.still 1 () hunreadableItem rfl
  have hmarked : (({} : Memory).store visits.layout homePage
      ((visitsUnder "data:$").layout.newItem homePage (visitsOf "5") "")).item? (visitsUnder "data:$").layout
        homePage = some ((visitsUnder "data:$").layout.newItem homePage (visitsOf "5") "") :=
    Memory.item?_store_self ..
  have hincrement := command_increment_applied increments_visits.nonempty increments_visits.ordered
    increments_visits.integral.numeric Environment.still 1 () hmarked rfl
  exact ⟨⟨_, hunreadable, rfl⟩, ⟨_, _, _, hincrement, rfl, rfl⟩, _, _, _, rfl, rfl, rfl⟩

end Table

end KeyedRecords
