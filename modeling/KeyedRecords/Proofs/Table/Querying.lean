import KeyedRecords.Proofs.Table.Returned
import KeyedRecords.Proofs.Table.Streaming
import KeyedRecords.Proofs.Update.Readable

/-! What was put to a table lies in it under its keys, the last item put at each. A query that uses the key names of
the table lists the items of a partition from the greatest sort key down, and those alone whose sort key meets its
condition. The names of a query are its own, though, and unless they are set they are not those of the table but `pk`
and `sk`: the table's key is then not looked at, and nothing is listed. Main statement: `Table.lists_own_names`. -/

namespace KeyedRecords

/-! ## New items -/

namespace TableLayout

def part? (layout : TableLayout) (name : String) (key : Key) : Option String :=
  if name = layout.sortName then some key.sort
  else if name = layout.partitionName then some key.partition else none

/-- A name is that of the sort key, that of the partition key, or that of neither. -/
theorem part?_cases (layout : TableLayout) (name : String) :
    (∀ key, layout.part? name key = some key.sort) ∨ (∀ key, layout.part? name key = some key.partition) ∨
      ∀ key, layout.part? name key = none := by
  by_cases hsort : name = layout.sortName
  · exact Or.inl fun key => if_pos hsort
  by_cases hpartition : name = layout.partitionName
  · exact Or.inr (Or.inl fun key => (if_neg hsort).trans (if_pos hpartition))
  · exact Or.inr (Or.inr fun key => (if_neg hsort).trans (if_neg hpartition))

variable {layout : TableLayout} (hapart : layout.KeysApart)

include hapart

/-- A new item has no text but the parts of its key and the time. -/
theorem textOf?_newItem_part {name : String} (hname : name ≠ createdName) (key : Key) (data : Item) (time : String) :
    BoundQuery.textOf? (layout.newItem key data time) name = layout.part? name key := by
  rw [BoundQuery.textOf?, newItem, Assoc.find?_insert_of_ne _ _ hname, Assoc.find?_insert, find?_keyItem, part?]
  by_cases hdata : name = layout.dataName
  · simp [hdata, hapart.data_sort, hapart.data_partition, Attribute.asString?]
  · simp only [if_neg hdata]
    split
    · rfl
    · split <;> rfl

end TableLayout

/-! ## Putting items -/

namespace Table

/-- Puts data at one key after another. The items that the puts bring, each with its key. -/
def putAll (table : Table) : List (Key × Json.Map) → Command (List (Key × Json))
  | [] => pure []
  | (key, data) :: rest => do
    let item ← table.put key data
    let more ← table.putAll rest
    pure ((key, item) :: more)

/-- Whether a table holds what was put to it, the last item at each key, and nothing else. -/
structure Holds (table : Table) (written : List (Key × Json)) (memory : Memory) : Prop where
  sorted : memory.Sorted
  items : Assoc.mapValues itemJson (memory.contents table.layout.table) =
    Assoc.mapValues .ok (Assoc.ofList written)
  new : ∀ key item, (key, item) ∈ memory.contents table.layout.table →
    ∃ data time, item = table.layout.newItem key data time

theorem holds_nothing (table : Table) : table.Holds [] {} where
  sorted := Memory.sorted_empty
  items := rfl
  new _ _ hmem := absurd hmem List.not_mem_nil

variable {table : Table} {ε : Type} (environment : Environment ε) (pages : Nat)

section Puts

variable (hapart : table.layout.KeysApart)

include hapart

theorem Holds.put {written : List (Key × Json)} {memory : Memory} (h : table.Holds written memory) (key : Key)
    (data : Json.Map) (e : ε) : ∃ json after e',
      environment.host.command pages (table.put key data) (memory, e) = some (.ok json, after, e') ∧
      table.Holds (written ++ [(key, json)]) after := by
  let stored := Attribute.ofJsonMap (Assoc.ofList (table.shape data))
  let item := table.layout.newItem key stored (environment.now e).1
  obtain ⟨json, hjson⟩ : ∃ json, itemJson item = .ok json := table.layout.readable_newItem key _ _
  have hkey : table.layout.keyOf? item = some key := TableLayout.keyOf?_newItem_apart hapart key _ _
  have hcontents : ((memory.counted .putItem).store table.layout key item).contents table.layout.table =
      Assoc.insert (memory.contents table.layout.table) key item := by
    rw [Memory.store, Memory.contents_insert, if_pos rfl]
    rfl
  refine ⟨json, (memory.counted .putItem).store table.layout key item, (environment.now e).2, ?_, ?_⟩
  · rw [Table.put, environment.command_now_bind, Host.command_ask_bind _ _ (environment.answer_putItem _ hkey rfl)]
    show environment.host.command pages (liftM (itemJson item)) _ = _
    rw [hjson]
    rfl
  · have hsorted : Memory.Sorted (memory.counted .putItem) := h.sorted
    refine ⟨hsorted.store _ _ _, ?_, fun own other hmem => ?_⟩
    · rw [hcontents, Assoc.ofList_concat, Assoc.mapValues_insert, Assoc.mapValues_insert, h.items, hjson]
    · rw [hcontents] at hmem
      rcases Assoc.mem_insert hmem with he | hmem
      · cases he
        exact ⟨_, _, rfl⟩
      · exact h.new own other hmem

theorem Holds.putAll (puts : List (Key × Json.Map)) {written : List (Key × Json)} {memory : Memory}
    (h : table.Holds written memory) (e : ε) : ∃ more after e',
      environment.host.command pages (table.putAll puts) (memory, e) = some (.ok more, after, e') ∧
      Assoc.keys more = Assoc.keys puts ∧ table.Holds (written ++ more) after := by
  induction puts generalizing written memory e with
  | nil => exact ⟨[], memory, e, rfl, rfl, by rwa [List.append_nil]⟩
  | cons first rest ih =>
    obtain ⟨key, data⟩ := first
    obtain ⟨json, between, e', hput, hbetween⟩ := h.put environment pages hapart key data e
    obtain ⟨more, after, e'', hrest, hkeys, hafter⟩ := ih hbetween e'
    refine ⟨(key, json) :: more, after, e'', ?_, congrArg _ hkeys, ?_⟩
    · rw [Table.putAll, environment.host.command_bind_ok pages hput, environment.host.command_bind_ok pages hrest]
      rfl
    · rwa [List.append_assoc] at hafter

end Puts

end Table

/-! ## Listing items -/

/-- The query of a partition under some key names, from the greatest sort key down. -/
def Query.under (partitionName sortName partition : String) (sort? : Option SortCondition) : Query where
  partition? := some partition
  partitionName := partitionName
  sort? := sort?
  sortName := sortName

/-- Whether a key is in a partition and its sort key meets a condition, if there is one. -/
def Key.isIn (partition : String) (sort? : Option SortCondition) (key : Key) : Bool :=
  key.partition = partition && sort?.all (·.accepts key.sort)

namespace TableLayout

variable (layout : TableLayout) (partitionName sortName partition : String) (sort? : Option SortCondition)

/-- Whether the parts of a key that items have under some names are a partition and a sort key that meets a condition.
-/
def shows (key : Key) : Bool :=
  layout.part? partitionName key = some partition &&
    sort?.all fun condition => (layout.part? sortName key).any condition.accepts

/-- Under its own names a layout shows the parts of a key. -/
theorem shows_own (hkeys : layout.partitionName ≠ layout.sortName) :
    layout.shows layout.partitionName layout.sortName partition sort? = Key.isIn partition sort? := by
  funext key
  cases sort? <;> simp [shows, Key.isIn, part?, hkeys]

def queryUnder : BoundQuery where
  layout := layout
  index? := none
  partitionName := partitionName
  partition := partition
  sortName := sortName
  sort? := sort?
  limit := 25
  ascending := false
  projection := []
  startKey? := none

theorem bind_under : (Query.under partitionName sortName partition sort?).bind layout =
    .ok (layout.queryUnder partitionName sortName partition sort?) := rfl

section Found

variable {layout partitionName sortName partition sort?} (hapart : layout.KeysApart)
  (hpartition : partitionName ≠ createdName) (hsort : sortName ≠ createdName)

include hapart hpartition hsort

theorem selects_newItem (key : Key) (data : Item) (time : String) :
    (layout.queryUnder partitionName sortName partition sort?).Selects (layout.newItem key data time) ↔
      layout.shows partitionName sortName partition sort? key = true := by
  have hin := textOf?_newItem_part hapart hpartition key data time
  have hshown := textOf?_newItem_part hapart hsort key data time
  cases sort? with
  | none => simp [BoundQuery.Selects, queryUnder, shows, hin]
  | some condition => simp [BoundQuery.Selects, queryUnder, shows, hin, hshown, Option.any_eq_true]

theorem match?_newItem (key : Key) (data : Item) (time : String) :
    (layout.queryUnder partitionName sortName partition sort?).match? key (layout.newItem key data time) =
      if layout.shows partitionName sortName partition sort? key then
        some ⟨(layout.part? sortName key).getD "", key, layout.newItem key data time⟩ else none := by
  have hsortText : (layout.queryUnder partitionName sortName partition sort?).sortText (layout.newItem key data time) =
      (layout.part? sortName key).getD "" := congrArg (·.getD "") (textOf?_newItem_part hapart hsort key data time)
  refine Option.ext fun m => ?_
  rw [BoundQuery.match?_eq_some_iff, selects_newItem hapart hpartition hsort, hsortText]
  split
  · rename_i hshows
    simp [hshows, eq_comm]
  · rename_i hshows
    simp [hshows]

end Found

/-- Keys that are shown in one partition have sort texts in the order of the keys. -/
theorem part?_lt_or_eq {key other : Key} (hlt : key < other)
    (hkey : layout.shows partitionName sortName partition sort? key = true)
    (hother : layout.shows partitionName sortName partition sort? other = true) :
    (layout.part? sortName key).getD "" < (layout.part? sortName other).getD "" ∨
      (layout.part? sortName key).getD "" = (layout.part? sortName other).getD "" := by
  simp only [shows, Bool.and_eq_true, decide_eq_true_eq] at hkey hother
  have hsame := hkey.1.trans hother.1.symm
  rcases layout.part?_cases sortName with hsort | hsort | hsort
  · simp only [hsort, Option.getD_some]
    rcases Key.lt_iff.1 hlt with hlt | ⟨-, hlt⟩
    · rcases layout.part?_cases partitionName with hpartition | hpartition | hpartition
      · simp only [hpartition, Option.some.injEq] at hsame
        exact Or.inr hsame
      · simp only [hpartition, Option.some.injEq] at hsame
        exact absurd (hsame ▸ hlt) (String.lt_irrefl _)
      · exact nomatch (hpartition key).symm.trans hkey.1
    · exact Or.inl hlt
  · simp only [hsort, Option.getD_some]
    exact (Key.lt_iff.1 hlt).imp_right And.left
  · exact Or.inr (by simp only [hsort])

end TableLayout

namespace Table

/-- What was put last at each of the keys that pass a test, from the greatest key down. -/
def listing (written : List (Key × Json)) (test : Key → Bool) : List Json :=
  ((Assoc.ofList written).filter fun entry => test entry.1).reverse.map (·.2)

variable {table : Table} {written : List (Key × Json)} {memory : Memory}

theorem Holds.keyed (hapart : table.layout.KeysApart) (h : table.Holds written memory) :
    table.layout.Keyed (memory.contents table.layout.table) := by
  intro key item hmem
  obtain ⟨data, time, rfl⟩ := h.new key item hmem
  exact TableLayout.keyOf?_newItem_apart hapart key data time

section Found

variable {partitionName sortName : String} (hapart : table.layout.KeysApart) (hpartition : partitionName ≠ createdName)
  (hsort : sortName ≠ createdName) (h : table.Holds written memory) (partition : String) (sort? : Option SortCondition)

include hapart hpartition hsort h

theorem Holds.match?_eq {key : Key} {item : Item} (hmem : (key, item) ∈ memory.contents table.layout.table) :
    (table.layout.queryUnder partitionName sortName partition sort?).match? key item =
      if table.layout.shows partitionName sortName partition sort? key then
        some ⟨(table.layout.part? sortName key).getD "", key, item⟩ else none := by
  obtain ⟨data, time, rfl⟩ := h.new key item hmem
  exact TableLayout.match?_newItem hapart hpartition hsort key data time

theorem Holds.ordered : (memory.contents table.layout.table).Pairwise fun a b =>
    ∀ m ∈ (table.layout.queryUnder partitionName sortName partition sort?).match? a.1 a.2,
      ∀ m' ∈ (table.layout.queryUnder partitionName sortName partition sort?).match? b.1 b.2,
        m.before m' = true := by
  refine (h.sorted table.layout.table).imp_of_mem fun {a b} ha hb hlt m hm m' hm' => ?_
  rw [Option.mem_def, h.match?_eq hapart hpartition hsort _ _ ha, Option.ite_none_right_eq_some] at hm
  rw [Option.mem_def, h.match?_eq hapart hpartition hsort _ _ hb, Option.ite_none_right_eq_some] at hm'
  obtain ⟨hshows, rfl⟩ := hm.imp_right Option.some.inj
  obtain ⟨hshows', rfl⟩ := hm'.imp_right Option.some.inj
  have hkeys : ¬ b.1 < a.1 := fun hgt => Match.key_lt_irrefl _ (Match.key_lt_trans hlt hgt)
  have htexts := TableLayout.part?_lt_or_eq _ _ _ _ _ hlt hshows hshows'
  simpa [Match.before, hkeys] using htexts

theorem Holds.found : ((table.layout.queryUnder partitionName sortName partition sort?).found
      (memory.contents table.layout.table)).map (fun m => itemJson m.item) =
    (listing written (table.layout.shows partitionName sortName partition sort?)).map .ok := by
  let query := table.layout.queryUnder partitionName sortName partition sort?
  let contents := memory.contents table.layout.table
  have hitems : (contents.filterMap fun entry => query.match? entry.1 entry.2).map (fun m => itemJson m.item) =
      (contents.filter fun entry => table.layout.shows partitionName sortName partition sort? entry.1).map
        fun entry => itemJson entry.2 := by
    rw [List.map_filterMap, ← List.filterMap_eq_map, List.filterMap_filter]
    refine List.filterMap_congr fun entry hentry => ?_
    rw [h.match?_eq hapart hpartition hsort partition sort? hentry]
    split <;> rfl
  have hordered := h.ordered hapart hpartition hsort partition sort?
  rw [BoundQuery.found_descending rfl hordered, List.map_reverse, hitems, Assoc.map_filter_values, h.items,
    ← Assoc.map_filter_values]
  simp [listing]

/-- A query under names of its own lists the keys that the layout shows under them. -/
theorem Holds.queryAll {ε : Type} (environment : Environment ε) (e : ε) {pages : Nat}
    (hpages : (listing written (table.layout.shows partitionName sortName partition sort?)).length < pages) :
    ∃ after : Memory, after.tables = memory.tables ∧
      environment.host.command pages (table.queryAll (Query.under partitionName sortName partition sort?) none)
        (memory, e) = some (.ok ((listing written (table.layout.shows partitionName sortName partition sort?)).map .ok),
          after, e) := by
  have hfound := h.found hapart hpartition hsort partition sort?
  have hlength := congrArg List.length hfound
  rw [List.length_map, List.length_map] at hlength
  obtain ⟨n, after, htables, hrun, hstop⟩ := BoundQuery.readPages_rest environment (fun _ => true)
    (h.sorted table.layout.table) pages (table.layout.queryUnder partitionName sortName partition sort?) _ [] memory e
    hapart.keys (h.keyed hapart) (Nat.one_le_ofNat) rfl List.suffix_rfl rfl (hlength ▸ hpages)
  have hall : ((table.layout.queryUnder partitionName sortName partition sort?).found
      (memory.contents table.layout.table)).length ≤ n := Nat.le_of_not_lt fun hn => nomatch hstop hn
  refine ⟨after, htables, ?_⟩
  rw [List.take_of_length_le hall, List.nil_append] at hrun
  rw [Host.command, queryAll_run (TableLayout.bind_under ..), streamFrom, Host.run, hrun, ← hfound]
  simp only [Host.run, List.map_map, Option.map_none, Option.toList_none, List.append_nil]
  rfl

end Found

/-- Whether a query, asked of the table after any puts to it and nothing else, lists what was put last at each of the
keys that pass a test, from the greatest key down. -/
def Lists (table : Table) (query : Query) (test : Key → Bool) : Prop :=
  ∀ (ε : Type) (environment : Environment ε) (puts : List (Key × Json.Map)) (e : ε) (pages : Nat),
    ∃ written memory e',
      environment.host.command pages (table.putAll puts) ({}, e) = some (.ok written, memory, e') ∧
      Assoc.keys written = Assoc.keys puts ∧
      ∀ pages, (listing written test).length < pages → ∃ after : Memory, after.tables = memory.tables ∧
        environment.host.command pages (table.queryAll query none) (memory, e') =
          some (.ok ((listing written test).map .ok), after, e')

theorem lists_shown {partitionName sortName : String} (hapart : table.layout.KeysApart)
    (hpartition : partitionName ≠ createdName) (hsort : sortName ≠ createdName) (partition : String)
    (sort? : Option SortCondition) : table.Lists (Query.under partitionName sortName partition sort?)
      (table.layout.shows partitionName sortName partition sort?) := by
  intro ε environment puts e pages
  obtain ⟨written, memory, e', hputs, hkeys, hholds⟩ :=
    (holds_nothing table).putAll environment pages hapart puts e
  exact ⟨written, memory, e', hputs, hkeys, fun pages hpages =>
    hholds.queryAll hapart hpartition hsort partition sort? environment e' hpages⟩

/-- What a query lists is determined by the puts. -/
theorem Lists.unique {query : Query} {test other : Key → Bool} (h : table.Lists query test)
    (hother : table.Lists query other) (puts : List (Key × Json.Map)) : ∃ written : List (Key × Json),
      Assoc.keys written = Assoc.keys puts ∧ listing written test = listing written other := by
  obtain ⟨written, memory, e, hputs, hkeys, hquery⟩ := h Unit Environment.still puts () 0
  obtain ⟨_, _, _, hputs', -, hquery'⟩ := hother Unit Environment.still puts () 0
  cases hputs.symm.trans hputs'
  let pages := (listing written test).length + (listing written other).length + 1
  obtain ⟨_, -, hrun⟩ := hquery pages (by omega)
  obtain ⟨_, -, hrun'⟩ := hquery' pages (by omega)
  have hsame := congrArg Prod.fst (Option.some.inj (hrun.symm.trans hrun'))
  exact ⟨written, hkeys, List.map_injective_iff.2 (fun _ _ => Except.ok.inj) (Except.ok.inj hsame)⟩

theorem listing_one (key : Key) (json : Json) (test : Key → Bool) :
    listing [(key, json)] test = if test key then [json] else [] := by
  cases htest : test key <;> simp [listing, Assoc.ofList, Assoc.overlay, Assoc.insert, htest]

/-- A query lists just the keys that the layout shows under its names. -/
theorem lists_iff {partitionName sortName : String} (hapart : table.layout.KeysApart)
    (hpartition : partitionName ≠ createdName) (hsort : sortName ≠ createdName) {partition : String}
    {sort? : Option SortCondition} {test : Key → Bool} :
    table.Lists (Query.under partitionName sortName partition sort?) test ↔
      test = table.layout.shows partitionName sortName partition sort? := by
  have hshown := lists_shown hapart hpartition hsort partition sort?
  constructor
  · intro h
    funext key
    obtain ⟨written, hkeys, hsame⟩ := h.unique hshown [(key, [])]
    obtain ⟨⟨own, json⟩, rfl, rfl⟩ := List.map_eq_singleton_iff.1 hkeys
    rw [listing_one, listing_one] at hsame
    cases htest : test own <;> cases hother : table.layout.shows partitionName sortName partition sort? own <;>
      simp [htest, hother] at hsame ⊢
  · rintro rfl
    exact hshown

/-- A query under the key names of the table lists what was put last at each key of its partition whose sort key meets
its condition, from the greatest sort key down. With the names that a query has of its own, it does so for a partition
exactly if the partition key of the table has the name that queries use, and with all conditions exactly if the sort
key has too. -/
theorem lists_own_names (hapart : table.layout.KeysApart) :
    (∀ partition sort?, table.Lists
      (Query.under table.layout.partitionName table.layout.sortName partition sort?) (Key.isIn partition sort?)) ∧
    (∀ partition, table.Lists { partition? := some partition } (Key.isIn partition none) ↔
      table.layout.partitionName = "pk") ∧
    ((∀ partition sort?, table.Lists { partition? := some partition, sort? := sort? } (Key.isIn partition sort?)) ↔
      table.layout.partitionName = "pk" ∧ table.layout.sortName = "sk") := by
  have hdefault : ∀ partition sort? test,
      table.Lists { partition? := some partition, sort? := sort? } test ↔
        test = table.layout.shows "pk" "sk" partition sort? :=
    fun partition sort? test => lists_iff hapart (by decide) (by decide)
  have hpartitionName : ∀ partition, table.Lists { partition? := some partition } (Key.isIn partition none) →
      table.layout.partitionName = "pk" := by
    intro partition h
    obtain ⟨sort, hsort⟩ : ∃ sort, sort ≠ partition :=
      ⟨partition.push 'x', fun he => by simpa using congrArg String.length he⟩
    have hshows := congrFun ((hdefault partition none _).1 h) ⟨partition, sort⟩
    by_contra hne
    by_cases hname : "pk" = table.layout.sortName
    · simp [Key.isIn, TableLayout.shows, TableLayout.part?, hname, hsort] at hshows
    · simp [Key.isIn, TableLayout.shows, TableLayout.part?, hname, Ne.symm hne] at hshows
  have hother : table.layout.partitionName = "pk" → "pk" ≠ table.layout.sortName :=
    fun hname he => hapart.keys (hname.trans he)
  refine ⟨fun partition sort? => ?_, fun partition => ⟨hpartitionName partition, fun hname => ?_⟩, ⟨fun h => ?_, ?_⟩⟩
  · exact (lists_iff hapart hapart.created.1 hapart.created.2).2
      (TableLayout.shows_own table.layout partition sort? hapart.keys).symm
  · refine (hdefault partition none _).2 ?_
    funext key
    simp [Key.isIn, TableLayout.shows, TableLayout.part?, hname, hother hname]
  · have hname := hpartitionName "a" (h "a" none)
    refine ⟨hname, ?_⟩
    have hshows := congrFun ((hdefault "a" (some (.equal "b")) _).1 (h "a" (some (.equal "b")))) ⟨"a", "b"⟩
    by_contra hne
    simp [Key.isIn, TableLayout.shows, TableLayout.part?, hname, hother hname, Ne.symm hne, SortCondition.accepts]
      at hshows
  · rintro ⟨hpartition, hsort⟩ partition sort?
    have hown := TableLayout.shows_own table.layout partition sort? hapart.keys
    rw [hpartition, hsort] at hown
    exact (hdefault partition sort? _).2 hown.symm

def capitals : Table where
  layout := { table := "t", partitionName := "PK", sortName := "SK" }

/-- An item is put, and the query of its partition lists nothing unless it has the names of the table. -/
theorem lists_own_names_capitals :
    (∃ json memory after,
      Environment.still.host.command 1 (capitals.putAll [(⟨"p", "s"⟩, [])]) ({}, ()) =
        some (.ok [(⟨"p", "s"⟩, json)], memory, ()) ∧
      Environment.still.host.command 1 (capitals.queryAll { partition? := some "p" } none) (memory, ()) =
        some (.ok [], after, ())) ∧
    ¬ capitals.Lists { partition? := some "p" } (Key.isIn "p" none) ∧
    capitals.Lists { partition? := some "p", partitionName := "PK", sortName := "SK" } (Key.isIn "p" none) := by
  have hapart : capitals.layout.KeysApart := ⟨by decide, by decide, by decide, by decide⟩
  obtain ⟨hown, hpartition, -⟩ := lists_own_names hapart
  refine ⟨?_, fun h => absurd ((hpartition "p").1 h) (by decide), hown "p" none⟩
  have hnone : capitals.layout.shows "pk" "sk" "p" none = fun _ => false := rfl
  have hlists : capitals.Lists { partition? := some "p" } fun _ => false :=
    (lists_iff hapart (by decide) (by decide)).2 hnone.symm
  obtain ⟨written, memory, e, hputs, hkeys, hquery⟩ := hlists Unit Environment.still [(⟨"p", "s"⟩, [])] () 1
  obtain ⟨⟨key, json⟩, rfl, rfl⟩ := List.map_eq_singleton_iff.1 hkeys
  obtain ⟨after, -, hrun⟩ := hquery 1 (by simp [listing])
  simp only [listing, List.filter_false, List.reverse_nil, List.map_nil] at hrun
  exact ⟨json, memory, after, hputs, hrun⟩

end Table

end KeyedRecords
