import KeyedRecords.Proofs.Records.Listing
import KeyedRecords.Proofs.Records.Tidy

/-! Deleting all records that filters select, while nobody else uses the store. All keys are read before the first
deletion, each is that of an item which is there, and no two are the same, so the count is that of the items
listed. Main statements: `command_deleteKeys`, `Tidy.deleteAll`, `deleteAll_exact`. -/

namespace KeyedRecords

namespace Records

variable {ρ ε : Type} {records : Records ρ}

/-- Whether a store is another one without the items under some keys of a table, after one call for each of these
keys and no other call of that kind. -/
structure Without (layout : TableLayout) (keys : List Key) (memory after : Memory) : Prop where
  items : ∀ key, after.item? layout key = if key ∈ keys then none else memory.item? layout key
  others : ∀ table ≠ layout.table, after.contents table = memory.contents table
  calls : after.calls.deleteItem = memory.calls.deleteItem + keys.length

/-- Deleting keys that are all there takes one call for each. -/
theorem command_deleteKeys (records : Records ρ) (environment : Environment ε) (pages : Nat) {memory : Memory} (e : ε)
    {keys : List Key} (hnodup : keys.Nodup)
    (hstored : ∀ key ∈ keys, (memory.item? records.model.layout key).isSome) : ∃ after,
      environment.host.command pages (records.deleteKeys keys) (memory, e) =
        some (.ok keys.length, (after, e)) ∧
      Without records.model.layout keys memory after := by
  induction keys generalizing memory with
  | nil => exact ⟨memory, rfl, fun _ => rfl, fun _ _ => rfl, rfl⟩
  | cons first rest ih =>
    obtain ⟨hfirst, hrest⟩ := List.nodup_cons.1 hnodup
    obtain ⟨item, hitem⟩ := Option.isSome_iff_exists.1 (hstored first List.mem_cons_self)
    let next := (memory.counted .deleteItem).remove records.model.layout first
    have hnext : ∀ key, next.item? records.model.layout key =
        if key = first then none else memory.item? records.model.layout key :=
      Memory.item?_remove (memory.counted .deleteItem) records.model.layout first
    have hdelete : environment.host.command pages (records.deleteKey first) (memory, e) =
        some (.ok true, (next, e)) := by
      rw [deleteKey, Host.command_ask_bind _ _ (environment.answer_deleteItem e hitem)]
      rfl
    have hleft : ∀ key ∈ rest, (next.item? records.model.layout key).isSome := by
      intro key hkey
      rw [hnext, if_neg (ne_of_mem_of_not_mem hkey hfirst)]
      exact hstored key (List.mem_cons_of_mem _ hkey)
    obtain ⟨after, hrun, hafter⟩ := ih hrest hleft
    refine ⟨after, ?_, fun key => ?_, fun table htable => ?_, ?_⟩
    · rw [deleteKeys, Host.command_bind_ok _ _ hdelete, Host.command_bind_ok _ _ hrun]
      show some (Except.ok (1 + rest.length), after, e) = _
      rw [List.length_cons, Nat.add_comm]
    · rw [hafter.items, hnext]
      by_cases hkey : key = first
      · simp [hkey]
      · simp [hkey]
    · rw [hafter.others table htable]
      exact (Memory.contents_insert _ _ _ _).trans (if_neg htable)
    · rw [hafter.calls, List.length_cons]
      show memory.calls.deleteItem + 1 + rest.length = _
      omega

end Records

/-! ## Tidy stores -/

namespace Listing

variable {ρ σ : Type} {host : Host σ} {pages : Nat} (listing : Listing ρ) {items : List Item} {state after : σ}
  (hkeep : ∀ record, listing.keep record = true)

include hkeep

theorem outcomes_all (items : List Item) : listing.outcomes items = items.map listing.records.read := by
  rw [outcomes_eq]
  refine List.filter_eq_self.2 fun outcome _ => ?_
  cases outcome with
  | ok record => exact hkeep record
  | error failure => rfl

/-- A listing that keeps every record streams what each item reads as. -/
theorem stream_all (hread : host.command pages (Command.readPages listing.query fun _ => true) state =
      some (.ok (items, none), after)) :
    host.command pages (listing.stream none) state =
      some (.ok (items.map listing.records.read), after) := by
  have htake : items.take items.length = items := List.take_length
  have hstream : host.command pages (listing.stream none) state = some (.ok (listing.outcomes items), after) :=
    stream_eq (n := items.length) (htake.symm ▸ hread) (fun hlt => absurd hlt (Nat.lt_irrefl _)) rfl
  rw [hstream, listing.outcomes_all hkeep]

/-- What it collects is what all items read as, or the first failure. -/
theorem collect_all (hread : ∀ wantsMore, host.command pages (Command.readPages listing.query wantsMore) state =
      some (.ok (items, none), after)) :
    host.command pages listing.collect state =
      some (((items.map listing.records.read).mapM id : Result (List ρ)), after) := by
  have htake : items.take items.length = items := List.take_length
  rw [collect_eq (n := items.length) (htake.symm ▸ hread _) fun hlt => absurd hlt (Nat.lt_irrefl _),
    listing.outcomes_all hkeep]

end Listing

namespace TableLayout

variable {ρ ε : Type} {records : Records ρ} {made : Key → Prop} {memory : Memory}

/-- What is left of a tidy store is tidy. -/
theorem Tidy.without {layout : TableLayout} {keys : List Key} {after : Memory} (h : layout.Tidy made memory)
    (hsorted : after.Sorted) (hwithout : Records.Without layout keys memory after) :
    layout.Tidy made after := by
  refine ⟨hsorted, fun key item hitem => h.stored key item ?_⟩
  rw [hwithout.items] at hitem
  split at hitem
  · cases hitem
  · exact hitem

variable (environment : Environment ε) (h : records.model.layout.Tidy made memory)
  (hnames : records.model.layout.partitionName ≠ records.model.layout.sortName)

include h hnames

/-- The items that a query selects from a tidy store, under their keys, and a run that reads them all. -/
theorem Tidy.selected (partition : String) (sort? : Option SortCondition) : ∃ listed : List (Key × Item),
    (Assoc.keys listed).Nodup ∧
    (∀ key item, (key, item) ∈ listed ↔ memory.item? records.model.layout key = some item ∧
      (records.partitionQuery partition sort?).Selects item) ∧
    (listed.map (·.2)).filterMap records.model.layout.keyOf? = Assoc.keys listed ∧
    ∀ pages e, listed.length < pages → ∃ after, after.tables = memory.tables ∧
      after.calls = { memory.calls with query := after.calls.query } ∧
      environment.host.command pages
        (Command.readPages (records.partitionQuery partition sort?) fun _ => true) (memory, e) =
          some (.ok (listed.map (·.2), none), (after, e)) := by
  obtain ⟨listed, hnodup, hmem, hkeys, hpages⟩ := BoundQuery.readPages_selected environment
    (records.partitionQuery partition sort?) hnames (by show 1 ≤ 25; decide) rfl rfl h.sorted h.keyed
  refine ⟨listed, hnodup, hmem, hkeys, fun pages e hlimit => ?_⟩
  obtain ⟨n, after, htables, hrun, hstop⟩ := hpages (fun _ => true) pages e hlimit
  have hall : listed.length ≤ n := Nat.le_of_not_lt fun hn => nomatch hstop hn
  rw [List.take_of_length_le (by simpa using hall)] at hrun
  exact ⟨after, htables, (environment.command_readPages_counted hrun).2, hrun⟩

/-- In a tidy store a listing brings the items that its query selects, and deleting by the same filters removes
them. -/
theorem Tidy.deleteAll {filters : Arguments} {query : Query} {partition : String} {sort? : Option SortCondition}
    (hquery : records.queryFor filters = .ok query)
    (hbind : query.bind records.model.layout = .ok (records.partitionQuery partition sort?)) :
    ∃ listed : List (Key × Item), (Assoc.keys listed).Nodup ∧
      (∀ key item, (key, item) ∈ listed ↔ memory.item? records.model.layout key = some item ∧
        (records.partitionQuery partition sort?).Selects item) ∧
      ∀ pages e, listed.length < pages →
        (∃ after : Memory, after.tables = memory.tables ∧ environment.host.command pages
          (Listing.stream ⟨records, records.partitionQuery partition sort?, fun _ => true⟩ none) (memory, e) =
            some (.ok (listed.map fun entry => records.read entry.2), (after, e))) ∧
        ∃ after, environment.host.command pages (records.deleteAll filters) (memory, e) =
            some (.ok listed.length, (after, e)) ∧
          Records.Without records.model.layout (Assoc.keys listed) memory after ∧
          records.model.layout.Tidy made after := by
  obtain ⟨listed, hnodup, hmem, hkeys, hpages⟩ := h.selected environment hnames partition sort?
  refine ⟨listed, hnodup, hmem, fun pages e hlimit => ?_⟩
  obtain ⟨between, htables, hcalls, hrun⟩ := hpages pages e hlimit
  constructor
  · let listing : Listing ρ := ⟨records, records.partitionQuery partition sort?, fun _ => true⟩
    have hstream := listing.stream_all (fun _ => rfl) hrun
    rw [List.map_map] at hstream
    exact ⟨between, htables, hstream⟩
  · have hbetween := Memory.contents_congr htables
    have hstored : ∀ key ∈ Assoc.keys listed, (between.item? records.model.layout key).isSome := by
      intro key hkey
      obtain ⟨⟨own, item⟩, hentry, rfl⟩ := List.mem_map.1 hkey
      rw [Memory.item?, hbetween]
      exact Option.isSome_of_eq_some ((hmem own item).1 hentry).1
    obtain ⟨after, hdeleted, hafter⟩ :=
      Records.command_deleteKeys records environment pages e hnodup hstored
    have hwithout : Records.Without records.model.layout (Assoc.keys listed) memory after := by
      refine ⟨fun key => ?_, fun table htable => ?_, ?_⟩
      · rw [hafter.items, Memory.item?, hbetween]
        rfl
      · rw [hafter.others table htable, hbetween]
      · rw [hafter.calls, hcalls]
    have hcommand : environment.host.command pages (records.deleteAll filters) (memory, e) =
        some (.ok listed.length, (after, e)) := by
      rw [Records.command_deleteAll hquery hbind hrun, hkeys, hdeleted, Assoc.keys, List.length_map]
    exact ⟨after, hcommand, hwithout, h.without (environment.command_sorted h.sorted hcommand) hwithout⟩

end TableLayout

namespace Records

variable {ρ ε : Type} {records : Records ρ}

/-- Whatever clients of a table did before, deleting all that filters select removes exactly the items that the
filters list, and counts them. There is nothing left to delete for the same filters, and where nothing is listed
no deletion is asked for. -/
theorem deleteAll_exact (hnames : records.model.layout.WellNamed)
    (hmark : ¬ replaceMark.toList <:+ records.model.layout.dataName.toList) {memory : Memory}
    (hreached : memory.ReachedBy records.model.layout.Offers) {filters : Arguments} {query : Query}
    (hquery : records.queryFor filters = .ok query) (environment : Environment ε) :
    ∃ (listing : Listing ρ) (listed : List (Key × Item)),
      records.list filters = .ok listing ∧ (Assoc.keys listed).Nodup ∧
      (∀ key item, (key, item) ∈ listed ↔
        memory.item? records.model.layout key = some item ∧ listing.query.Selects item) ∧
      ∀ pages e, listed.length < pages →
        (∃ after : Memory, after.tables = memory.tables ∧
          environment.host.command pages (listing.stream none) (memory, e) =
            some (.ok (listed.map fun entry => records.read entry.2), (after, e))) ∧
        ∃ after, environment.host.command pages (records.deleteAll filters) (memory, e) =
            some (.ok listed.length, (after, e)) ∧
          (∀ key, after.item? records.model.layout key =
            if key ∈ Assoc.keys listed then none else memory.item? records.model.layout key) ∧
          (∀ table ≠ records.model.layout.table, after.contents table = memory.contents table) ∧
          after.calls.deleteItem = memory.calls.deleteItem + listed.length ∧
          ∃ last, environment.host.command pages (records.deleteAll filters) (after, e) =
              some (.ok 0, (last, e)) ∧
            (∀ key, last.item? records.model.layout key = after.item? records.model.layout key) ∧
            (∀ table ≠ records.model.layout.table, last.contents table = after.contents table) ∧
            last.calls.deleteItem = after.calls.deleteItem := by
  obtain ⟨-, partition, sort?, -, hbind, -, -⟩ := queryFor_bind hquery
  have htidy := TableLayout.tidy_of_reached (hnames.fixed hmark) hnames.keys hreached
  obtain ⟨listed, hnodup, hmem, hpages⟩ := htidy.deleteAll environment hnames.keys hquery hbind
  have hlist : records.list filters =
      .ok ⟨records, records.partitionQuery partition sort?, fun _ => true⟩ :=
    bind_eq_ok.2 ⟨query, hquery, bind_eq_ok.2 ⟨_, hbind, rfl⟩⟩
  refine ⟨_, listed, hlist, hnodup, hmem, fun pages e hlimit => ?_⟩
  obtain ⟨hstream, after, hrun, hwithout, hafter⟩ := hpages pages e hlimit
  have hlength : (Assoc.keys listed).length = listed.length := List.length_map _
  refine ⟨hstream, after, hrun, hwithout.items, hwithout.others, hlength ▸ hwithout.calls, ?_⟩
  -- What is left of the items was not selected before, so there is nothing to list any more.
  obtain ⟨left, -, hleft, hpages⟩ := hafter.deleteAll environment hnames.keys hquery hbind
  have hnone : left = [] := by
    refine List.eq_nil_iff_forall_not_mem.2 fun entry hentry => ?_
    obtain ⟨hitem, hselects⟩ := (hleft entry.1 entry.2).1 hentry
    rw [hwithout.items] at hitem
    split at hitem
    · cases hitem
    · rename_i hkey
      exact hkey (List.mem_map.2 ⟨entry, (hmem _ _).2 ⟨hitem, hselects⟩, rfl⟩)
  subst hnone
  obtain ⟨-, last, hlast, hsame, -⟩ := hpages pages e (Nat.lt_of_le_of_lt (Nat.zero_le _) hlimit)
  exact ⟨last, hlast, hsame.items, hsame.others, hsame.calls⟩

def visitClient : Program Unit :=
  (visits.create [("date", .string "d1"), ("id", .string "1"), ("site", .string "s1")]).run.bind fun _ =>
    (visits.create [("date", .string "d2"), ("id", .string "2"), ("site", .string "s1")]).run.bind fun _ =>
      (visits.create [("date", .string "d1"), ("id", .string "3"), ("site", .string "s2")]).run.bind fun _ =>
        .done ()

def countClient : Program Unit :=
  (Table.accumulate { layout := visits.model.layout } ⟨"SITE#s1", "COUNT"⟩
    [("visits", .number .zero)] none).run.bind fun _ => .done ()

def visited : Memory :=
  (Environment.still.host.interleave [0, 1, 0, 1, 0, 1, 0, 1, 0, 0] [visitClient, countClient] ({}, ())).2.1

theorem visited_reached : visited.ReachedBy visits.model.layout.Offers := by
  refine ⟨Unit, Environment.still, (), _, _, fun client hclient => ?_, rfl⟩
  have hvisits : ∀ fields, visits.model.layout.Offers (visits.create fields) :=
    fun fields => Or.inl ⟨Json, visits, rfl, .create fields⟩
  rcases List.mem_cons.1 hclient with rfl | hclient
  · exact .next (hvisits _) fun _ => .next (hvisits _) fun _ => .next (hvisits _) fun _ => .done
  · cases List.mem_singleton.1 hclient
    exact .next (Or.inr ⟨_, rfl, .accumulate _ _ _⟩) fun _ => .done

/-- Deleting the visits to the site takes the two that were created, and leaves the count of them. -/
theorem deleteAll_exact_visits : ∃ (listed : List (Key × Item)) (after : Memory),
    ⟨"SITE#s1", "VISIT#d1#1"⟩ ∈ Assoc.keys listed ∧ ⟨"SITE#s1", "VISIT#d2#2"⟩ ∈ Assoc.keys listed ∧
    Environment.still.host.command (listed.length + 1) (visits.deleteAll siteFilters) (visited, ()) =
      some (.ok listed.length, (after, ())) ∧
    after.item? visits.model.layout ⟨"SITE#s1", "VISIT#d1#1"⟩ = none ∧
    after.item? visits.model.layout ⟨"SITE#s1", "COUNT"⟩ =
      visited.item? visits.model.layout ⟨"SITE#s1", "COUNT"⟩ ∧
    (visited.item? visits.model.layout ⟨"SITE#s1", "COUNT"⟩).isSome := by
  have hnames : visits.model.layout.WellNamed := by constructor <;> decide
  have hquery : visits.queryFor siteFilters =
      .ok { partition? := some "SITE#s1", sort? := some (.startingWith "VISIT#") } := rfl
  obtain ⟨listing, listed, hlist, -, hmem, hpages⟩ :=
    deleteAll_exact hnames (by decide) visited_reached hquery Environment.still
  have hsite : visits.list siteFilters = .ok
      ⟨visits, visits.partitionQuery "SITE#s1" (some (.startingWith "VISIT#")), fun _ => true⟩ := rfl
  obtain rfl := Except.ok.inj (hlist.symm.trans hsite)
  obtain ⟨-, after, hrun, hitems, -⟩ := hpages (listed.length + 1) () (Nat.lt_succ_self _)
  have hlisted : ∀ sort item, visited.item? visits.model.layout ⟨"SITE#s1", sort⟩ = some item →
      visits.model.layout.keyOf? item = some ⟨"SITE#s1", sort⟩ →
      (SortCondition.startingWith "VISIT#").accepts sort = true →
      (⟨"SITE#s1", sort⟩ : Key) ∈ Assoc.keys listed := by
    intro sort item hitem hkey haccepted
    refine List.mem_map.2 ⟨(⟨"SITE#s1", sort⟩, item), (hmem _ _).2 ⟨hitem, ?_⟩, rfl⟩
    exact (selects_iff hkey).2 ⟨rfl, fun condition hcondition => by cases hcondition; exact haccepted⟩
  have hfirst := hlisted "VISIT#d1#1" _ rfl rfl (by decide)
  have hcount : (⟨"SITE#s1", "COUNT"⟩ : Key) ∉ Assoc.keys listed := by
    intro hkey
    obtain ⟨⟨key, item⟩, hentry, rfl⟩ := List.mem_map.1 hkey
    obtain ⟨hitem, hselects⟩ := (hmem _ item).1 hentry
    have hkey : visits.model.layout.keyOf? item = some ⟨"SITE#s1", "COUNT"⟩ := by
      cases hitem
      rfl
    exact absurd (((selects_iff hkey).1 hselects).2 _ rfl) (by decide)
  refine ⟨listed, after, hfirst, hlisted "VISIT#d2#2" _ rfl rfl (by decide), hrun, ?_, ?_, rfl⟩
  · rw [hitems, if_pos hfirst]
  · rw [hitems, if_neg hcount]

end Records

end KeyedRecords
