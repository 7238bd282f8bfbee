import KeyedRecords.Proofs.Query.FullKey
import KeyedRecords.Proofs.Records.Deleting
import KeyedRecords.Proofs.Schema.Unreadable

/-! One record by all fields of its key, given as arguments or as filters. Both ways lead to the item at the key that
the fields make, because every stored item carries the key that its record made, and filters that can be told apart
ask for that key alone. Main statements: `queryFor_filled`, `point_filter_agree`. -/

namespace KeyedRecords

namespace TableLayout

variable {layout : TableLayout}

/-! ## Keys of new items -/

/-- What the key that a new item carries has of the key that it was made for. The sort key is written over the
partition key, and the time of the creation over both. -/
structure Carried (layout : TableLayout) (made own : Key) : Prop where
  sort : layout.sortName ≠ createdName → own.sort = made.sort
  partition : layout.partitionName ≠ layout.sortName → layout.partitionName ≠ createdName →
    own.partition = made.partition

theorem carried_newItem {key own : Key} {data : Item} {time : String}
    (h : layout.keyOf? (layout.newItem key data time) = some own) : layout.Carried key own := by
  obtain ⟨hpartition, hsort⟩ := keyOf?_eq_some_iff.1 h
  constructor
  · intro hname
    have hown := find?_newItem_text hname hsort
    rw [find?_keyItem, if_pos rfl] at hown
    injection hown with hown
    injection hown with hown
    exact hown.symm
  · intro hnames hname
    have hown := find?_newItem_text hname hpartition
    rw [find?_keyItem, if_neg hnames, if_pos rfl] at hown
    injection hown with hown
    injection hown with hown
    exact hown.symm

end TableLayout

/-- Whether a key is carried by an item for which the templates made one. -/
def KeyTemplate.Made (keys : KeyTemplate) (layout : TableLayout) (own : Key) : Prop :=
  ∃ args made, keys.key args = .ok made ∧ layout.Carried made own

/-- Whether records of a model, with keys from templates, can be filtered by all fields of the keys. Where the
attribute of the partition key is the only field the partition has to tell the sort key, so both are to be carried
as they were made. -/
structure Model.Filterable (model : Model) (keys : KeyTemplate) : Prop where
  strategy : model.keys = keys.strategy
  tells : model.filterRules.Tells keys
  fixed : model.layout.Fixed
  alone : (∀ name ∈ keys.fields, name = model.layout.partitionName) → model.layout.sortName ≠ createdName ∧
    (model.layout.partitionName ∈ keys.sort.fields →
      model.layout.partitionName ≠ model.layout.sortName ∧ model.layout.partitionName ≠ createdName)

namespace Model.Filterable

variable {model : Model} {keys : KeyTemplate} (h : model.Filterable keys) {memory : Memory}

include h

/-- A store that records of the model have come to is tidy, and the templates made all its keys. -/
theorem tidy (hreached : memory.ReachedBy model.Offers) : model.layout.Tidy (keys.Made model.layout) memory := by
  refine hreached.invariant (P := model.layout.Keeps (keys.Made model.layout)) TableLayout.Tidy.empty
    (fun call memory hcall hmemory => hcall _ (hmemory.congr rfl)) ?_
  rintro α command ⟨ρ, records, rfl, hoffers⟩
  refine hoffers.asks (TableLayout.keeps_records h.fixed fun {fields key data} hencode time own hown => ?_)
  obtain ⟨hmade, -⟩ := Records.encode_eq_ok.1 hencode
  rw [h.strategy] at hmade
  exact ⟨fields, key, hmade, TableLayout.carried_newItem hown⟩

/-- Where the attribute of the partition key is the only field, keys with one partition are one. -/
theorem sort_eq (halone : ∀ name ∈ keys.fields, name = model.layout.partitionName)
    (hfield : model.layout.partitionName ∈ keys.fields) {args : Arguments} {key own : Key}
    (hkey : keys.key args = .ok key) (hmade : keys.Made model.layout own)
    (hpartition : own.partition = key.partition) : own.sort = key.sort := by
  obtain ⟨other, made, hother, hcarried⟩ := hmade
  obtain ⟨hsort, hboth⟩ := h.alone halone
  have hsegments := (h.tells.partition hfield).1
  rw [hcarried.sort hsort]
  have hrender : keys.sort.render other keys.model = keys.sort.render args keys.model := by
    refine Template.renderSegments_congr fun name hname => ?_
    have hattribute := halone name (KeyTemplate.mem_fields.2 (Or.inr hname))
    obtain ⟨hnames, hcreated⟩ := hboth (hattribute ▸ hname)
    rw [hattribute]
    rw [hcarried.partition hnames hcreated] at hpartition
    have hgiven := Template.render_field hsegments (KeyTemplate.key_eq_ok hkey).1
    have hotherGiven := Template.render_field hsegments (KeyTemplate.key_eq_ok hother).1
    exact hotherGiven.trans (hpartition ▸ hgiven.symm)
  rw [(KeyTemplate.key_eq_ok hkey).2, (KeyTemplate.key_eq_ok hother).2] at hrender
  exact Except.ok.inj hrender

end Model.Filterable

namespace Records

variable {ρ ε : Type} {records : Records ρ} {keys : KeyTemplate} {args : Arguments} {key : Key} {memory : Memory}

theorem queryFor_of_ne_nil {filters : Arguments} {query : Query} (hne : filters ≠ [])
    (h : records.model.filterRules.toQuery filters = .ok query) : records.queryFor filters = .ok query := by
  have hempty : filters.isEmpty = false := by simpa using hne
  simp only [queryFor, h, hempty]
  cases records.model.listingStart? <;> rfl

section Filled

variable (hkeys : records.model.Filterable keys) (hfields : keys.fields ≠ []) (hfilled : keys.FilledBy args)
  (hkey : keys.key args = .ok key)

include hkeys hfields hfilled hkey

/-- The query of all fields of a key. In a store that records have come to it selects the item at the key. -/
theorem queryFor_filled : ∃ query sort?, records.queryFor args = .ok query ∧
    query.bind records.model.layout = .ok (records.partitionQuery key.partition sort?) ∧
    ∀ own item, records.model.layout.keyOf? item = some own → keys.Made records.model.layout own →
      ((records.partitionQuery key.partition sort?).Selects item ↔ own = key) := by
  have hrules : records.model.filterRules.keys = keys.strategy := hkeys.strategy
  obtain ⟨query, htranslated, hpartition, hsort⟩ :=
    FilterRules.toQuery_filled hrules hkeys.tells hfilled hkey
  have hne := hfilled.ne_nil hfields
  have hquery := queryFor_of_ne_nil hne htranslated
  obtain ⟨translated, partition, sort?, htranslated', hbind, hpartition', hsort'⟩ := queryFor_bind hquery
  cases htranslated.symm.trans htranslated'
  cases hpartition.symm.trans hpartition'
  refine ⟨query, sort?, hquery, hbind, fun own item hown hmade => ?_⟩
  rw [selects_iff hown, Key.eq_iff, ← hsort' hne]
  refine and_congr_right fun hown => ?_
  -- Without a condition on the sort key the partition alone has to tell it.
  rcases hsort with hsort | ⟨hsort, hfield, halone⟩
  · simp [hsort, SortCondition.accepts]
  · have hsame := hkeys.sort_eq halone hfield hkey hmade hown
    simp [hsort, hsame]

end Filled

end Records

/-! ## Reading and deleting -/

/-- In a tidy store a query that selects the item at one key finds this or nothing. -/
theorem TableLayout.Tidy.found_single {layout : TableLayout} {made : Key → Prop} {memory : Memory}
    (h : layout.Tidy made memory) {query : BoundQuery} {key : Key}
    (hselects : ∀ own item, memory.item? layout own = some item → (query.Selects item ↔ own = key)) :
    (query.found (memory.contents layout.table)).map (·.item) = (memory.item? layout key).toList := by
  have hmem : ∀ m ∈ query.found (memory.contents layout.table),
      m.key = key ∧ memory.item? layout key = some m.item := by
    intro m hm
    obtain ⟨hstored, hselected, -⟩ := BoundQuery.mem_found.1 hm
    have hitem : memory.item? layout m.key = some m.item := Assoc.find?_of_mem (h.sorted _).nodup hstored
    have hkey := (hselects m.key m.item hitem).1 hselected
    exact ⟨hkey, hkey ▸ hitem⟩
  have hkeys := BoundQuery.found_keys_pairwise query (h.sorted layout.table)
  cases hitem : memory.item? layout key with
  | none =>
    rw [List.eq_nil_iff_forall_not_mem.2 fun m hm => nomatch hitem.symm.trans (hmem m hm).2]
    rfl
  | some item =>
    have hfound : ⟨query.sortText item, key, item⟩ ∈ query.found (memory.contents layout.table) :=
      BoundQuery.mem_found.2 ⟨Assoc.mem_of_find? hitem, (hselects key item hitem).2 rfl, rfl⟩
    generalize query.found (memory.contents layout.table) = found at hmem hkeys hfound
    rcases found with _ | ⟨first, _ | ⟨second, rest⟩⟩
    · cases hfound
    · cases List.mem_singleton.1 hfound
      rfl
    · have hsecond := (hmem second (List.mem_cons_of_mem _ List.mem_cons_self)).1
      have hfirst := (hmem first List.mem_cons_self).1
      exact absurd (hfirst.trans hsecond.symm) (List.rel_of_pairwise_cons hkeys List.mem_cons_self)

namespace Records

variable {ρ ε : Type}

section Single

variable (records : Records ρ) (environment : Environment ε) (pages : Nat) (memory : Memory) (e : ε)
  {args : Arguments} {key : Key}

theorem command_get (hkey : records.model.keys.key args = .ok key) :
    environment.host.command pages (records.get args) (memory, e) =
      some ((memory.item? records.model.layout key).elim (.error (.recordNotFound records.model.name key))
        records.read, (memory.counted .getItem, e)) := by
  have hanswer : environment.host.answer (.getItem records.model.layout key) (memory, e) =
      (.ok (memory.item? records.model.layout key), (memory.counted .getItem, e)) := environment.answer_getItem e
  rw [get, hkey, Host.command_ok_bind, Host.command_ask_bind _ _ hanswer]
  cases memory.item? records.model.layout key <;> rfl

theorem command_deleteKey (key : Key) :
    environment.host.command pages (records.deleteKey key) (memory, e) =
      some (.ok (memory.item? records.model.layout key).isSome,
        ((memory.answer (.deleteItem records.model.layout key)).2, e)) := by
  have hanswer : environment.host.answer (.deleteItem records.model.layout key) (memory, e) =
      (.ok (memory.item? records.model.layout key),
        ((memory.answer (.deleteItem records.model.layout key)).2, e)) := by
    refine Prod.ext ?_ rfl
    cases hitem : memory.item? records.model.layout key with
    | none => rw [environment.answer_deleteItem_missing e hitem]
    | some item => rw [environment.answer_deleteItem e hitem]
  rw [deleteKey, Host.command_ask_bind _ _ hanswer]
  rfl

theorem tables_deleteItem {layout : TableLayout} (key : Key) :
    (memory.answer (.deleteItem layout key)).2.tables =
      if (memory.item? layout key).isSome then (memory.remove layout key).tables else memory.tables := by
  cases hitem : memory.item? layout key with
  | none => exact congrArg (·.2.1.tables) (Environment.still.answer_deleteItem_missing () hitem)
  | some item => exact congrArg (·.2.1.tables) (Environment.still.answer_deleteItem () hitem)

/-- Deleting the item that was found at a key, or none, is deleting the key. -/
theorem deleteKeys_found (hkeyed : ∀ item, memory.item? records.model.layout key = some item →
      records.model.layout.keyOf? item = some key) : ∃ after,
    environment.host.command pages (records.deleteKeys
      ((memory.item? records.model.layout key).toList.filterMap records.model.layout.keyOf?)) (memory, e) =
        some (.ok (memory.item? records.model.layout key).isSome.toNat, (after, e)) ∧
    after.tables = (memory.answer (.deleteItem records.model.layout key)).2.tables := by
  have hdelete := command_deleteKey records environment pages memory e key
  cases hitem : memory.item? records.model.layout key with
  | none => exact ⟨memory, rfl, by simp [tables_deleteItem, hitem]⟩
  | some item =>
    have hkeys : [item].filterMap records.model.layout.keyOf? = [key] := by simp [hkeyed item hitem]
    refine ⟨_, ?_, rfl⟩
    rw [Option.toList_some, hkeys, deleteKeys, Host.command_bind_ok _ _ hdelete, hitem]
    rfl

theorem command_delete (hkey : records.model.keys.key args = .ok key) :
    environment.host.command pages (records.delete args) (memory, e) =
      some (.ok (memory.item? records.model.layout key).isSome.toNat,
        ((memory.answer (.deleteItem records.model.layout key)).2, e)) := by
  have hdelete := command_deleteKey records environment pages memory e key
  rw [delete, hkey, Host.command_ok_bind, Host.command_bind_ok _ _ hdelete]
  rfl

end Single

/-- A record that was looked up as the list of those found: one that is not there is none at all. -/
def listed : Result ρ → Result (List ρ)
  | .ok record => .ok [record]
  | .error (.recordNotFound ..) => .ok []
  | .error failure => .error failure

theorem listed_lookup (records : Records ρ) (model : String) (key : Key) (item? : Option Item) :
    listed (item?.elim (.error (.recordNotFound model key)) records.read) =
      ((item?.toList.map records.read).mapM id : Result (List ρ)) := by
  cases item? with
  | none => rfl
  | some item =>
    show listed (records.read item) = ([records.read item].mapM id : Result (List ρ))
    cases hread : records.read item with
    | ok record => rfl
    | error failure =>
      have hunreadable := read_unreadable records item failure hread
      cases failure <;> first | rfl | cases hunreadable

/-- Records of a model whose keys can be filtered by their fields are found and deleted alike, by all fields of a
key as arguments and as filters: what is got is all that is listed, and as many are deleted from the tables. -/
theorem point_filter_agree {records : Records ρ} {keys : KeyTemplate} {memory : Memory} {args : Arguments}
    (hkeys : records.model.Filterable keys) (hfields : keys.fields ≠ [])
    (hreached : memory.ReachedBy records.model.Offers) (hfilled : keys.FilledBy args)
    (environment : Environment ε) : ∃ listing, records.list args = .ok listing ∧ ∀ pages e, 1 ≤ pages →
      ∃ (found : Result ρ) (count : Nat) (got read deleted cleared : Memory),
        environment.host.command pages (records.get args) (memory, e) = some (found, (got, e)) ∧
        environment.host.command pages listing.collect (memory, e) = some (listed found, (read, e)) ∧
        got.tables = memory.tables ∧ read.tables = memory.tables ∧
        environment.host.command pages (records.delete args) (memory, e) = some (.ok count, (deleted, e)) ∧
        environment.host.command pages (records.deleteAll args) (memory, e) = some (.ok count, (cleared, e)) ∧
        cleared.tables = deleted.tables := by
  obtain ⟨key, hkey⟩ := hfilled.exists_key
  have hmodel : records.model.keys.key args = .ok key := by
    rw [hkeys.strategy]
    exact hkey
  have htidy := hkeys.tidy hreached
  obtain ⟨query, sort?, hquery, hbind, hselects⟩ := queryFor_filled hkeys hfields hfilled hkey
  let bound := records.partitionQuery key.partition sort?
  have hfound : (bound.found (memory.contents bound.layout.table)).map (·.item) =
      (memory.item? records.model.layout key).toList :=
    htidy.found_single fun own item hitem =>
      hselects own item (htidy.stored own item hitem).1 (htidy.stored own item hitem).2
  have hlist : records.list args = .ok ⟨records, bound, fun _ => true⟩ :=
    bind_eq_ok.2 ⟨query, hquery, bind_eq_ok.2 ⟨_, hbind, rfl⟩⟩
  refine ⟨_, hlist, fun pages e hpages => ?_⟩
  have hread : ∀ wantsMore,
      environment.host.command pages (Command.readPages bound wantsMore) (memory, e) =
        some (.ok ((memory.item? records.model.layout key).toList, none), (memory.counted .query, e)) := by
    intro wantsMore
    have hlength := congrArg List.length hfound
    rw [List.length_map] at hlength
    have hshort : (memory.item? records.model.layout key).toList.length ≤ 25 := by
      cases memory.item? records.model.layout key <;> simp
    rw [BoundQuery.readPages_single environment bound memory e rfl rfl (hlength.trans_le hshort) wantsMore hpages,
      hfound]
  let listing : Listing ρ := ⟨records, bound, fun _ => true⟩
  have hcollect := listing.collect_all (fun _ => rfl) hread
  have hget := command_get records environment pages memory e hmodel
  have hdelete := command_delete records environment pages memory e hmodel
  have hdeleteAll := command_deleteAll hquery hbind (hread fun _ => true)
  obtain ⟨cleared, hcleared, htables⟩ := deleteKeys_found records environment pages (memory.counted .query) e
    fun item hitem => (htidy.stored key item hitem).1
  rw [tables_deleteItem] at htables
  refine ⟨_, _, _, memory.counted .query, _, cleared, hget, ?_, rfl, rfl, hdelete, hdeleteAll.trans hcleared, ?_⟩
  · rw [hcollect, listed_lookup]
  · rw [htables, tables_deleteItem]
    rfl

def filedVisits : Memory :=
  (Environment.still.host.interleave [0, 0, 0, 0, 0, 0] [visitClient] ({}, ())).2.1

theorem filedVisits_reached : filedVisits.ReachedBy visits.model.Offers := by
  refine ⟨Unit, Environment.still, (), _, _, fun client hclient => ?_, rfl⟩
  have hvisits : ∀ fields, visits.model.Offers (visits.create fields) :=
    fun fields => ⟨Json, visits, rfl, .create fields⟩
  cases List.mem_singleton.1 hclient
  exact .next (hvisits _) fun _ => .next (hvisits _) fun _ => .next (hvisits _) fun _ => .done

def firstVisit : Arguments := [("date", .string "d1"), ("id", .string "1"), ("site", .string "s1")]

theorem firstVisit_filled : visitKeys.FilledBy firstVisit := by
  refine ⟨?_, fun name => ⟨?_, ?_⟩, fun name value hentry => ?_⟩
  · unfold Assoc.Sorted
    decide
  · exact (by decide : ∀ name ∈ Assoc.keys firstVisit, name ∈ visitKeys.fields) name
  · exact (by decide : ∀ name ∈ visitKeys.fields, name ∈ Assoc.keys firstVisit) name
  · simp only [firstVisit, List.mem_cons, Prod.mk.injEq, List.not_mem_nil, or_false] at hentry
    rcases hentry with ⟨-, rfl⟩ | ⟨-, rfl⟩ | ⟨-, rfl⟩ <;> exact ⟨_, rfl⟩

theorem visits_filterable : visits.model.Filterable visitKeys where
  strategy := rfl
  tells := ⟨by decide, by decide, by decide⟩
  fixed := ⟨by decide, by decide⟩
  alone := by decide

/-- One visit is got, listed and deleted by all fields of its key. -/
theorem point_filter_agree_visits : ∃ (listing : Listing Json) (read deleted cleared : Memory),
    visits.list firstVisit = .ok listing ∧
    Environment.still.host.command 1 listing.collect (filedVisits, ()) =
      some (.ok [.map firstVisit], (read, ())) ∧
    Environment.still.host.command 1 (visits.delete firstVisit) (filedVisits, ()) =
      some (.ok 1, (deleted, ())) ∧
    Environment.still.host.command 1 (visits.deleteAll firstVisit) (filedVisits, ()) =
      some (.ok 1, (cleared, ())) ∧ cleared.tables = deleted.tables := by
  obtain ⟨listing, hlist, hruns⟩ := point_filter_agree visits_filterable (by decide) filedVisits_reached
    firstVisit_filled Environment.still
  obtain ⟨found, count, got, read, deleted, cleared, hget, hcollect, -, -, hdelete, hdeleteAll, htables⟩ :=
    hruns 1 () (Nat.le_refl 1)
  have hfound : Environment.still.host.command 1 (visits.get firstVisit) (filedVisits, ()) =
      some (.ok (.map firstVisit), (filedVisits.counted .getItem, ())) := rfl
  have hcount : (Environment.still.host.command 1 (visits.delete firstVisit) (filedVisits, ())).map (·.1) =
      some (.ok 1) := rfl
  cases hfound.symm.trans hget
  rw [hdelete] at hcount
  cases hcount
  exact ⟨listing, read, deleted, cleared, hlist, hcollect, hdelete, hdeleteAll, htables⟩

/-! A field with the name of a key attribute. Its filter is taken for the key itself, so the text around it in the
template is missing. -/

def ownedKeys : KeyTemplate where
  model := "Note"
  partition := ⟨"P#\x7bpk\x7d", [.literal "P#", .field "pk"]⟩
  sort := ⟨"S#\x7bid\x7d", [.literal "S#", .field "id"]⟩

def ownedNotes : Records Json where
  model := {
    name := "Note"
    qualified := "app::Note"
    layout := { table := "notes" }
    schema := [⟨"id", .text, .optional⟩, ⟨"pk", .text, .required⟩]
    keys := ownedKeys.strategy
    listingStart? := none }
  form := visits.form

def ownedNote : Arguments := [("id", .string "1"), ("pk", .string "x")]

def ownedStore : Memory :=
  (Environment.still.host.interleave [0, 0] [(ownedNotes.create ownedNote).run.bind fun _ => .done ()] ({}, ())).2.1

theorem ownedNote_filled : ownedKeys.FilledBy ownedNote := by
  refine ⟨?_, fun name => ⟨?_, ?_⟩, fun name value hentry => ?_⟩
  · unfold Assoc.Sorted
    decide
  · exact (by decide : ∀ name ∈ Assoc.keys ownedNote, name ∈ ownedKeys.fields) name
  · exact (by decide : ∀ name ∈ ownedKeys.fields, name ∈ Assoc.keys ownedNote) name
  · simp only [ownedNote, List.mem_cons, Prod.mk.injEq, List.not_mem_nil, or_false] at hentry
    rcases hentry with ⟨-, rfl⟩ | ⟨-, rfl⟩ <;> exact ⟨_, rfl⟩

/-- The partition that the filters ask for is empty: the note is in the one with the text around. -/
theorem ownedNote_unread (wantsMore : List Item → Bool) :
    Environment.still.host.command 1
      (Command.readPages (ownedNotes.partitionQuery "x" (some (.equal "S#1"))) wantsMore) (ownedStore, ()) =
        some (.ok ([], none), (ownedStore.counted .query, ())) := by
  let bound := ownedNotes.partitionQuery "x" (some (.equal "S#1"))
  have hnone : bound.found (ownedStore.contents bound.layout.table) = [] := by
    refine List.eq_nil_iff_forall_not_mem.2 fun m hm => ?_
    obtain ⟨hstored, hselected, -⟩ := BoundQuery.mem_found.1 hm
    have hkey : ownedNotes.model.layout.keyOf? m.item = some ⟨"P#x", "S#1"⟩ := by
      obtain ⟨sort, key, item⟩ := m
      cases List.mem_singleton.1 hstored
      rfl
    exact absurd ((selects_iff hkey).1 hselected).1 (by decide)
  have hread := BoundQuery.readPages_single Environment.still bound ownedStore () rfl rfl
    (by simp [hnone]) wantsMore (Nat.le_refl 1)
  rw [hnone] at hread
  exact hread

/-- The note is got and deleted by the fields of its key, but neither listed nor deleted by filters on them. -/
theorem point_filter_disagree : ownedKeys.fields ≠ [] ∧ ownedStore.ReachedBy ownedNotes.model.Offers ∧
    ownedKeys.FilledBy ownedNote ∧
    (∃ after, Environment.still.host.command 1 (ownedNotes.get ownedNote) (ownedStore, ()) =
      some (.ok (.map ownedNote), after)) ∧
    (∃ listing after, ownedNotes.list ownedNote = .ok listing ∧
      Environment.still.host.command 1 listing.collect (ownedStore, ()) = some (.ok [], after)) ∧
    (∃ after, Environment.still.host.command 1 (ownedNotes.delete ownedNote) (ownedStore, ()) =
      some (.ok 1, after)) ∧
    ∃ after, Environment.still.host.command 1 (ownedNotes.deleteAll ownedNote) (ownedStore, ()) =
      some (.ok 0, after) := by
  have hquery : ownedNotes.queryFor ownedNote =
      .ok { partition? := some "x", sort? := some (.equal "S#1") } := rfl
  have hreached : ownedStore.ReachedBy ownedNotes.model.Offers := by
    refine ⟨Unit, Environment.still, (), _, _, fun client hclient => ?_, rfl⟩
    cases List.mem_singleton.1 hclient
    exact .next ⟨Json, ownedNotes, rfl, .create ownedNote⟩ fun _ => .done
  refine ⟨by decide, hreached, ownedNote_filled, ⟨_, rfl⟩, ?_, ⟨_, rfl⟩, ?_⟩
  · let listing : Listing Json := ⟨ownedNotes, ownedNotes.partitionQuery "x" (some (.equal "S#1")), fun _ => true⟩
    exact ⟨listing, _, rfl, listing.collect_all (fun _ => rfl) ownedNote_unread⟩
  · exact ⟨_, command_deleteAll hquery rfl (ownedNote_unread fun _ => true)⟩

end Records

end KeyedRecords
