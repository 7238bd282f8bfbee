import KeyedRecords.Proofs.Records.Listing
import KeyedRecords.Proofs.Records.Origins
import KeyedRecords.Proofs.Records.Requests

/-! Records and the items that they are read from. Whatever is read by key or by filters is the record of a stored item,
and in a run whose keys can be told apart it makes the key of that item. So it can be given back to delete the item or
to write over it, and reaches no other one. Main statements: `handle_stored`, `stays_findable`. -/

namespace KeyedRecords

/-! ## Items of pages -/

/-- A query that projects nothing shows items as they are stored. -/
theorem BoundQuery.mem_page {query : BoundQuery} {contents : Contents} (hsorted : Assoc.Sorted contents)
    (hprojection : query.projection = []) {item : Item} (h : item ∈ (query.page contents).items) :
    ∃ key, (key, item) ∈ contents := by
  obtain ⟨m, hm, rfl⟩ := List.mem_map.1 h
  have hfound := (query.resume_spec hsorted).1.subset (List.mem_of_mem_take hm)
  have hshown : query.shown m.item = m.item := by simp [shown, hprojection]
  refine ⟨m.key, ?_⟩
  rw [hshown]
  exact (mem_found.1 hfound).1

/-- The pages of such a query hold nothing but stored items. -/
theorem Environment.readPages_stored {ε : Type} (environment : Environment ε) {memory : Memory}
    (hsorted : memory.Sorted) {wantsMore : List Item → Bool} {pages : Nat} {query : BoundQuery}
    (hprojection : query.projection = [])
    {seen items : List Item} {e : ε} {failure? : Option StoreError} {after : Memory × ε}
    (hseen : ∀ item ∈ seen, ∃ key, memory.item? query.layout key = some item)
    (h : environment.host.readPages wantsMore pages query seen (memory, e) = some ((items, failure?), after)) :
    ∀ item ∈ items, ∃ key, memory.item? query.layout key = some item := by
  induction pages generalizing query seen memory with
  | zero => cases h
  | succ pages ih =>
    have hpage : ∀ item ∈ seen ++ (query.page (memory.contents query.layout.table)).items,
        ∃ key, memory.item? query.layout key = some item := by
      intro item hitem
      rcases List.mem_append.1 hitem with hitem | hitem
      · exact hseen item hitem
      · obtain ⟨key, hmem⟩ := BoundQuery.mem_page (hsorted _) hprojection hitem
        exact ⟨key, Assoc.find?_of_mem (hsorted _).nodup hmem⟩
    have hanswer : environment.host.answer (.query query) (memory, e) =
        (.ok (query.page (memory.contents query.layout.table)), (memory.counted .query, e)) := rfl
    simp only [Host.readPages, hanswer] at h
    split at h
    · cases h
      exact hpage
    · rename_i start _
      split at h
      · have hcounted : (memory.counted .query).Sorted := hsorted
        have hrest : ∀ item ∈ items,
            ∃ key, (memory.counted .query).item? (query.startingAfter start).layout key = some item :=
          ih hcounted hprojection hpage h
        exact hrest
      · cases h
        exact hpage

/-! ## Records that are read -/

/-- Whether a request reads records, by their key or by filters. -/
def RecordRequest.Reads {ρ : Type} : RecordRequest ρ → Prop
  | .single (.get _) | .collect (.filters _) _ | .stream (.filters _) _ _ | .page .. => True
  | _ => False

def RecordResponse.Has {ρ : Type} (record : ρ) : RecordResponse ρ → Prop
  | .answer (.record own) => own = record
  | .answer _ => False
  | .records found => record ∈ found
  | .outcomes own => .ok record ∈ own
  | .page own => record ∈ own.records

namespace Listing

variable {ρ : Type} {listing : Listing ρ} {items : List Item} {record : ρ}

theorem exists_of_outcome (h : .ok record ∈ listing.outcomes items) :
    ∃ item ∈ items, listing.records.read item = .ok record :=
  List.mem_map.1 (List.mem_filter.1 h).1

end Listing

theorem mem_of_mapM {α β : Type} {f : α → Result β} {l : List α} {found : List β} (h : l.mapM f = .ok found) {b : β}
    (hb : b ∈ found) : ∃ a ∈ l, f a = .ok b := by
  induction l generalizing found with
  | nil =>
    cases h
    exact absurd hb List.not_mem_nil
  | cons first rest ih =>
    rw [List.mapM_cons] at h
    obtain ⟨own, hown, h⟩ := bind_eq_ok.1 h
    obtain ⟨more, hmore, h⟩ := bind_eq_ok.1 h
    cases h
    rcases List.mem_cons.1 hb with rfl | hb
    · exact ⟨first, List.mem_cons_self, hown⟩
    · obtain ⟨a, ha, hfa⟩ := ih hmore hb
      exact ⟨a, List.mem_cons_of_mem _ ha, hfa⟩

namespace Records

variable {ρ ε : Type} {records : Records ρ}

theorem queryFor_projection {filters : Arguments} {query : Query} (h : records.queryFor filters = .ok query) :
    query.projection = [] := by
  obtain ⟨translated, partition, sort?, -, hbind, -⟩ := queryFor_bind h
  exact (Query.of_bind hbind).2.2.symm

theorem pageQuery_projection {filters : Arguments} {cursor? : Option Cursor} {limit : Nat} {bound : BoundQuery}
    (h : records.pageQuery filters cursor? limit = .ok bound) : bound.projection = [] := by
  obtain ⟨query, hquery, h⟩ := bind_eq_ok.1 h
  have hprojection := queryFor_projection hquery
  cases cursor? with
  | none => exact (Query.of_bind h).2.2.trans hprojection
  | some cursor =>
    obtain ⟨start, -, h⟩ := bind_eq_ok.1 h
    exact (Query.of_bind h).2.2.trans hprojection

/-- A command that lists what is selected has a listing, and a result of it. -/
theorem command_listing {σ α β : Type} {host : Host σ} {pages : Nat} {selected : Result (Listing ρ)}
    {command : Listing ρ → Command α} {f : α → β} {state after : σ} {b : β}
    (h : host.command pages (do
      let listing ← (selected : Command (Listing ρ))
      f <$> command listing) state = some (.ok b, after)) :
    ∃ listing a, selected = .ok listing ∧ host.command pages (command listing) state = some (.ok a, after) ∧
      f a = b := by
  obtain ⟨listing, rfl, h⟩ := Host.command_result_inv_ok h
  obtain ⟨a, hrun, heq⟩ := Host.command_map_inv_ok h
  exact ⟨listing, a, rfl, hrun, heq⟩

section Stored

variable {environment : Environment ε} {memory : Memory} (hsorted : memory.Sorted) {pages : Nat} {e : ε}
  {state : Memory × ε} {record : ρ}

theorem get_stored {args : Arguments}
    (hrun : environment.host.command pages (records.get args) (memory, e) = some (.ok record, state)) :
    ∃ key item, memory.item? records.model.layout key = some item ∧ records.read item = .ok record := by
  obtain ⟨key, -, hrun⟩ := Host.command_result_inv_ok hrun
  rw [Host.command_ask_bind _ _ (environment.answer_getItem e)] at hrun
  cases hitem : memory.item? records.model.layout key with
  | none =>
    rw [hitem] at hrun
    cases hrun
  | some item =>
    rw [hitem] at hrun
    cases hread : records.read item with
    | error failure =>
      simp only [hread] at hrun
      cases hrun
    | ok own =>
      simp only [hread] at hrun
      cases hrun
      exact ⟨key, item, hitem, hread⟩

omit hsorted in
theorem outcome_stored {filters : Arguments} {keep : ρ → Bool} {listing : Listing ρ}
    (hlist : records.list filters keep = .ok listing) {items : List Item}
    (hitems : ∀ item ∈ items, ∃ key, memory.item? listing.query.layout key = some item)
    (h : .ok record ∈ listing.outcomes items) :
    ∃ key item, memory.item? records.model.layout key = some item ∧ records.read item = .ok record := by
  obtain ⟨query, bound, -, hbound, rfl⟩ := list_eq_ok hlist
  obtain ⟨item, hitem, hread⟩ := Listing.exists_of_outcome h
  obtain ⟨key, hkey⟩ := hitems item hitem
  rw [Query.bind_layout hbound] at hkey
  exact ⟨key, item, hkey, hread⟩

include hsorted

/-- A command that begins with the pages of filters goes on from stored items. -/
theorem listed_stored {filters : Arguments} {keep : ρ → Bool} {listing : Listing ρ}
    (hlist : records.list filters keep = .ok listing) {wantsMore : List Item → Bool} {α : Type}
    {f : List Item × Option StoreError → Command α} {a : α}
    (hrun : environment.host.command pages (Command.readPages listing.query wantsMore >>= f) (memory, e) =
      some (.ok a, state)) : ∃ items failure? between,
        (∀ item ∈ items, ∃ key, memory.item? listing.query.layout key = some item) ∧
          environment.host.command pages (f (items, failure?)) between = some (.ok a, state) := by
  obtain ⟨query, bound, hquery, hbound, rfl⟩ := list_eq_ok hlist
  have hprojection := (Query.of_bind hbound).2.2.trans (queryFor_projection hquery)
  rw [Host.command_bind, Host.command_readPages] at hrun
  obtain ⟨⟨result, between⟩, hread, hrun⟩ := Option.bind_eq_some_iff.1 hrun
  obtain ⟨⟨⟨items, failure?⟩, after⟩, hread, heq⟩ := Option.map_eq_some_iff.1 hread
  cases heq
  have hitems := environment.readPages_stored hsorted hprojection (fun _ h => absurd h List.not_mem_nil) hread
  exact ⟨items, failure?, _, hitems, hrun⟩

theorem collect_stored {filters : Arguments} {keep : ρ → Bool} {listing : Listing ρ} {found : List ρ}
    (hlist : records.list filters keep = .ok listing) (hrecord : record ∈ found)
    (hrun : environment.host.command pages listing.collect (memory, e) = some (.ok found, state)) :
    ∃ key item, memory.item? records.model.layout key = some item ∧ records.read item = .ok record := by
  obtain ⟨items, failure?, between, hitems, hrun⟩ := listed_stored hsorted hlist hrun
  obtain ⟨all, hall, hrun⟩ := Host.command_result_inv_ok hrun
  cases failure? with
  | some failure => cases hrun
  | none =>
    cases hrun
    obtain ⟨outcome, houtcome, rfl⟩ := mem_of_mapM hall hrecord
    exact outcome_stored hlist hitems houtcome

theorem stream_stored {filters : Arguments} {keep : ρ → Bool} {count? : Option Nat} {listing : Listing ρ}
    {outcomes : List (Result ρ)} (hlist : records.list filters keep = .ok listing) (hrecord : .ok record ∈ outcomes)
    (hrun : environment.host.command pages (listing.stream count?) (memory, e) = some (.ok outcomes, state)) :
    ∃ key item, memory.item? records.model.layout key = some item ∧ records.read item = .ok record := by
  simp only [Listing.stream] at hrun
  split at hrun
  · obtain ⟨items, failure?, between, hitems, hrun⟩ := listed_stored hsorted hlist hrun
    cases hrun
    have hall : .ok record ∈ listing.outcomes items ++
        (failure?.map fun e => (.error (.store e) : Result ρ)).toList := by
      cases count? with
      | none => exact hrecord
      | some count => exact List.mem_of_mem_take hrecord
    rcases List.mem_append.1 hall with hall | hall
    · exact outcome_stored hlist hitems hall
    · cases failure? <;> simp at hall
  · cases hrun
    exact absurd hrecord List.not_mem_nil

theorem page_stored {filters : Arguments} {cursor? : Option Cursor} {limit : Nat} {page : RecordPage ρ}
    (hrecord : record ∈ page.records)
    (hrun : environment.host.command pages (records.page filters cursor? limit) (memory, e) = some (.ok page, state)) :
    ∃ key item, memory.item? records.model.layout key = some item ∧ records.read item = .ok record := by
  obtain ⟨bound, hbound, hrun⟩ := Host.command_result_inv_ok hrun
  have hprojection := pageQuery_projection hbound
  have hanswer : environment.host.answer (.query bound) (memory, e) =
      (.ok (bound.page (memory.contents bound.layout.table)), (memory.counted .query, e)) := rfl
  rw [Host.command_ask_bind _ _ hanswer] at hrun
  obtain ⟨all, hread, hrun⟩ := Host.command_result_inv_ok hrun
  cases hrun
  obtain ⟨item, hitem, hown⟩ := mem_of_mapM hread hrecord
  obtain ⟨key, hmem⟩ := BoundQuery.mem_page (hsorted _) hprojection hitem
  rw [pageQuery_layout hbound] at hmem
  exact ⟨key, item, Assoc.find?_of_mem (hsorted _).nodup hmem, hown⟩

/-- Whatever is read by key or by filters is the record of a stored item. -/
theorem handle_stored {request : RecordRequest ρ} {response : RecordResponse ρ} (hreads : request.Reads)
    (hrun : environment.host.command pages (records.handle request) (memory, e) = some (.ok response, state))
    (hhas : response.Has record) :
    ∃ key item, memory.item? records.model.layout key = some item ∧ records.read item = .ok record := by
  cases request with
  | single call =>
    cases call with
    | get args =>
      obtain ⟨answer, hperform, rfl⟩ := Host.command_map_inv_ok hrun
      obtain ⟨own, hget, rfl⟩ := Host.command_map_inv_ok hperform
      cases hhas
      exact get_stored hget
    | _ => exact absurd hreads id
  | createRecord record => exact absurd hreads id
  | collect selection keep =>
    cases selection with
    | query query => exact absurd hreads id
    | filters filters =>
      obtain ⟨listing, found, hlist, hcollect, rfl⟩ := command_listing hrun
      exact collect_stored hsorted hlist hhas hcollect
  | stream selection keep count? =>
    cases selection with
    | query query => exact absurd hreads id
    | filters filters =>
      obtain ⟨listing, outcomes, hlist, hstream, rfl⟩ := command_listing hrun
      exact stream_stored hsorted hlist hhas hstream
  | page filters cursor? limit =>
    obtain ⟨page, hpage, rfl⟩ := Host.command_map_inv_ok hrun
    exact page_stored hsorted hhas hpage
  | deleteAll filters => exact absurd hreads id

end Stored

/-! ## Records that are given back -/

/-- Whether the type of the records writes all that it read, but for nulls, and nothing that is not declared. -/
def Restates (records : Records ρ) : Prop :=
  ∀ data value record, records.model.schema.decode data = .ok (.map value) →
    records.form.ofJson (.map value) = .ok record → ∃ fields, records.form.write record = .ok (.map fields) ∧
      (∀ name, givenValue? fields name = givenValue? value name) ∧
        records.model.schema.undeclared (Arguments.stored fields) = []

/-- Whether a record belongs under a key: its fields make that key, and can be stored so that they read as the
record. -/
def Belongs (records : Records ρ) (record : ρ) (key : Key) : Prop :=
  ∃ fields data value, records.fieldsOf record = .ok fields ∧
    records.encode fields = .ok (key, data) ∧ records.model.schema.decode data = .ok (.map value) ∧
      records.recordOf value = .ok record

theorem recordOf_eq_ok {value : Json.Map} {record : ρ} (h : records.recordOf value = .ok record) :
    records.form.ofJson (.map value) = .ok record := by
  simp only [recordOf] at h
  cases hform : records.form.ofJson (.map value) with
  | error reason =>
    rw [hform] at h
    cases h
  | ok own =>
    rw [hform] at h
    cases h
    rfl

/-- What is read from an item belongs under the key of the item. -/
theorem MadeFrom.belongs {keys : KeyTemplate} {origins : List Arguments} {key : Key} {item : Item} {value : Json.Map}
    (h : records.MadeFrom keys origins key item value) (hdistinct : records.model.schema.Distinct)
    (htemplated : Templated records.model keys) (hrestates : records.Restates) {record : ρ}
    (hread : records.read item = .ok record) : records.Belongs record key := by
  have hrecord : records.recordOf value = .ok record := h.read.symm.trans hread
  obtain ⟨old, -, hold⟩ := h.data
  obtain ⟨fields, hfields, hgiven, hdeclared⟩ := hrestates old value record hold (recordOf_eq_ok hrecord)
  obtain ⟨data, hencode, hdecode⟩ :=
    h.rewritable.encode hdistinct hold hgiven hdeclared records.model.name
  have hkey : records.model.keys.key fields = .ok key := by
    rw [htemplated.strategy]
    exact (KeyTemplate.key_congr fun name _ => Arguments.segment?_of_given (hgiven name)).trans h.own_key
  refine ⟨fields, data, value, by rw [fieldsOf, hfields]; rfl, ?_, hdecode, hrecord⟩
  exact bind_eq_ok.2 ⟨key, hkey, bind_eq_ok.2 ⟨data, hencode, rfl⟩⟩

section Back

variable (environment : Environment ε) {memory : Memory} {pages : Nat} {e : ε} {record : ρ} {key : Key}
  (h : records.Belongs record key)

include h

theorem Belongs.own_key : ∃ fields, records.fieldsOf record = .ok fields ∧
    records.model.keys.key fields = .ok key := by
  obtain ⟨fields, data, value, hfields, hencode, -⟩ := h
  exact ⟨fields, hfields, (encode_eq_ok.1 hencode).1⟩

theorem Belongs.remove {item : Item} (hitem : memory.item? records.model.layout key = some item) :
    environment.host.command pages (records.remove record) (memory, e) =
      some (.ok true, ((memory.counted .deleteItem).remove records.model.layout key, e)) := by
  obtain ⟨fields, hfields, hkey⟩ := h.own_key
  have hdelete : environment.host.command pages (records.delete fields) (memory, e) =
      some (.ok 1, ((memory.counted .deleteItem).remove records.model.layout key, e)) := by
    rw [delete, hkey, Host.command_ok_bind, ← map_eq_pure_bind, Host.command_map, deleteKey,
      Host.command_ask_bind _ _ (environment.answer_deleteItem e hitem)]
    rfl
  rw [Records.remove, hfields, Host.command_ok_bind, ← map_eq_pure_bind, Host.command_map, hdelete]
  rfl

theorem Belongs.save (hnames : records.model.layout.WellNamed) {id : String} (hid : records.form.id? record = some id) :
    ∃ saved, records.read saved = .ok record ∧
      environment.host.command pages (records.save record) (memory, e) =
        some (.ok record, ((memory.counted .putItem).store records.model.layout key saved, (environment.now e).2)) := by
  obtain ⟨fields, data, value, hfields, hencode, hdecode, hrecord⟩ := h
  have hkey := TableLayout.keyOf?_newItem hnames key data (environment.now e).1
  rw [← TableLayout.keyOf?_stamped hnames (environment.now e).1] at hkey
  have hdata := TableLayout.dataOf?_newItem hnames key data (environment.now e).1
  rw [← TableLayout.dataOf?_stamped hnames (environment.now e).1] at hdata
  refine ⟨_, (read_of_data hdata hdecode).trans hrecord, ?_⟩
  have hcheck : Memory.check none (memory.item? records.model.layout key) key = .ok () := rfl
  simp only [Records.save, hid, hfields]
  rw [Host.command_ok_bind, hencode, Host.command_ok_bind, environment.command_now_bind]
  dsimp only
  rw [Host.command_ask_bind _ _ (environment.answer_putItem _ hkey hcheck)]
  rfl

end Back

/-- Whether an item lies under the key that its own record makes. -/
structure UnderOwnKey (records : Records ρ) (key : Key) (item : Item) : Prop where
  /-- The fields that the data of the item read as. -/
  fields : ∃ data value, records.model.layout.dataOf? item = some data ∧
    records.model.schema.decode data = .ok (.map value) ∧ records.model.keys.key value = .ok key
  /-- The fields that the record read from the item is written as. -/
  record : ∀ record, records.read item = .ok record → ∃ args,
    records.fieldsOf record = .ok args ∧ records.model.keys.key args = .ok key

/-- Whether a record is that of an item of a store, and reaches the item at its key alone, in whatever store: deleting
it deletes that item, and saving it writes the record over that item. -/
def FindsItem (records : Records ρ) (environment : Environment ε) (memory : Memory) (record : ρ) : Prop :=
  ∃ key item, memory.item? records.model.layout key = some item ∧ records.read item = .ok record ∧
    ∀ later stored pages e, Memory.item? later records.model.layout key = some stored →
      (∃ after, environment.host.command pages (records.remove record) (later, e) = some (.ok true, (after, e)) ∧
        Memory.DiffersAt records.model.layout key later none after) ∧
      ∃ saved after, records.read saved = .ok record ∧
        environment.host.command pages (records.save record) (later, e) =
          some (.ok record, (after, (environment.now e).2)) ∧
        Memory.DiffersAt records.model.layout key later (some saved) after

/-- In a run whose keys can be told apart every item lies under the key of its own record. So a record with an
identifier that is read by key or by filters finds its item: as long as there is one at that key, deleting the record
deletes it alone, and saving the record writes over it alone. -/
theorem stays_findable {environment : Environment ε} {keys : KeyTemplate} {origins : List Arguments} {memory : Memory}
    (hdistinct : records.model.schema.Distinct) (hnames : records.model.layout.WellNamed)
    (htemplated : Templated records.model keys) (hrestates : records.Restates)
    (hrun : records.Run environment origins memory) (htells : keys.TellsApart origins) :
    (∀ key item, memory.item? records.model.layout key = some item → records.UnderOwnKey key item) ∧
      ∀ request pages e response state record id, RecordRequest.Reads request →
        environment.host.command pages (records.handle request) (memory, e) = some (.ok response, state) →
          response.Has record → records.form.id? record = some id → records.FindsItem environment memory record := by
  have hmade := hrun.made hdistinct hnames htemplated htells
  constructor
  · intro key item hitem
    obtain ⟨value, hfrom⟩ := hmade.items key item hitem
    obtain ⟨data, hdata, hdecode⟩ := hfrom.data
    refine ⟨⟨data, value, hdata, hdecode, ?_⟩, fun record hread => ?_⟩
    · rw [htemplated.strategy]
      exact hfrom.own_key
    · exact (hfrom.belongs hdistinct htemplated hrestates hread).own_key
  · intro request pages e response state record id hreads hcommand hhas hid
    obtain ⟨key, item, hitem, hread⟩ := handle_stored hmade.sorted hreads hcommand hhas
    obtain ⟨value, hfrom⟩ := hmade.items key item hitem
    have hbelongs := hfrom.belongs hdistinct htemplated hrestates hread
    refine ⟨key, item, hitem, hread, fun later stored pages e hstored => ⟨?_, ?_⟩⟩
    · exact ⟨_, hbelongs.remove environment hstored, later.differsAt_remove _ _ key⟩
    · obtain ⟨saved, hsaved, hsave⟩ := hbelongs.save environment hnames hid
      exact ⟨saved, _, hsaved, hsave, later.differsAt_store _ _ key saved⟩

/-- Records that are kept as their values write just these. -/
theorem restates_of_values {records : Records Json} (hdistinct : records.model.schema.Distinct)
    (hwrite : ∀ record, records.form.write record = .ok record)
    (hofJson : ∀ value record, records.form.ofJson value = .ok record → record = value) : records.Restates := by
  intro data value record hdecode hrecord
  obtain ⟨-, hundeclared, -⟩ := (Schema.decode_eq_ok_iff hdistinct).1 hdecode
  refine ⟨value, by rw [hwrite, hofJson _ _ hrecord], fun _ => rfl, Schema.undeclared_eq_nil_iff.2 fun name hname => ?_⟩
  obtain ⟨entry, hentry, rfl⟩ := List.mem_map.1 hname
  refine List.mem_map.1 (by_contra fun hnone => ?_)
  exact Assoc.find?_eq_none_iff.1 (hundeclared _ hnone) (List.mem_map_of_mem (List.mem_filter.1 hentry).1)

theorem notes_restates : notes.Restates := by
  refine restates_of_values notes_distinct (fun _ => rfl) fun value record h => ?_
  simp only [notes] at h
  split at h
  · cases h
  · cases h
    rfl

def noteKeys : KeyTemplate := KeyTemplate.standard "app::Note" "Note"

/-- The keys of notes end with their one field, so any are told apart. -/
theorem noteKeys_tellsApart (origins : List Arguments) : noteKeys.TellsApart origins := by
  have hreadable : noteKeys.Readable fun _ _ => True := ⟨trivial, fun h => absurd rfl h, trivial⟩
  exact KeyTemplate.tellsApart_of_readable hreadable fun _ _ _ _ _ _ => trivial

/-- A note that was made and changed is found and taken away by itself. -/
theorem stays_findable_notes : ∃ origins memory, notes.Run Environment.still origins memory ∧
    notes.FindsItem Environment.still memory
      (.map [("id", .string "1"), ("tag", .string "-"), ("text", .string "b")]) := by
  have hmade : notes.Run Environment.still _ _ := Run.empty.perform
    (show Environment.still.host.command 1
      (notes.perform (.create [("id", .string "1"), ("text", .string "a")])) ({}, ()) = some (_, (_, ())) from rfl)
  have hchanged : notes.Run Environment.still _ _ := hmade.perform
    (show Environment.still.host.command 1
      (notes.perform (.update [("id", .string "1"), ("text", .string "b")])) (_, ()) = some (_, (_, ())) from rfl)
  have hfound := stays_findable notes_distinct notes_wellNamed ⟨rfl, by decide, by decide⟩ notes_restates hchanged
    (noteKeys_tellsApart _)
  exact ⟨_, _, hchanged, hfound.2 (.single (.get [("id", .string "1")])) 1 () _ _ _ "1" trivial rfl rfl rfl⟩

/-- Notes whose partition attribute has the name of the time of an update. -/
def stampedNotes : Records Json :=
  { notes with model := { notes.model with layout := { table := "notes", partitionName := "updatedAt" } } }

/-- Notes that are written without their identifier. -/
def forgetfulNotes : Records Json :=
  { notes with form := { notes.form with toJson := fun record => .map (Assoc.erase (record.asMap?.getD []) "id") } }

/-- Distinct names are not enough. A note whose partition attribute takes the time of an update is saved beside the item
that it was read from, and one that is written without its identifier cannot be removed. -/
theorem save_strays_remove_fails :
    ((stampedNotes.model.layout.partitionName ≠ stampedNotes.model.layout.sortName ∧
        stampedNotes.model.layout.dataName ≠ stampedNotes.model.layout.partitionName ∧
        stampedNotes.model.layout.dataName ≠ stampedNotes.model.layout.sortName) ∧
      stampedNotes.model.schema.Distinct ∧ Templated stampedNotes.model noteKeys ∧
      ∃ origins memory record after, stampedNotes.Run Environment.still origins memory ∧ noteKeys.TellsApart origins ∧
        Environment.still.host.command 1 (stampedNotes.get [("id", .string "1")]) (memory, ()) =
          some (.ok record, (memory.counted .getItem, ())) ∧
        stampedNotes.form.id? record = some "1" ∧
        Environment.still.host.command 1 (stampedNotes.save record) (memory, ()) = some (.ok record, (after, ())) ∧
        (memory.contents "notes").length = 1 ∧ (after.contents "notes").length = 2) ∧
    forgetfulNotes.model.layout.WellNamed ∧ forgetfulNotes.model.schema.Distinct ∧
      Templated forgetfulNotes.model noteKeys ∧
      ∃ origins memory record, forgetfulNotes.Run Environment.still origins memory ∧ noteKeys.TellsApart origins ∧
        Environment.still.host.command 1 (forgetfulNotes.get [("id", .string "1")]) (memory, ()) =
          some (.ok record, (memory.counted .getItem, ())) ∧
        forgetfulNotes.form.id? record = some "1" ∧
        Environment.still.host.command 1 (forgetfulNotes.remove record) (memory, ()) =
          some (.error (.missingKeyField "Note" "id"), (memory, ())) := by
  have hstamped : stampedNotes.Run Environment.still _ _ := Run.empty.perform
    (show Environment.still.host.command 1
      (stampedNotes.perform (.create [("id", .string "1")])) ({}, ()) = some (_, (_, ())) from rfl)
  have hforgetful : forgetfulNotes.Run Environment.still _ _ := Run.empty.perform
    (show Environment.still.host.command 1
      (forgetfulNotes.perform (.create [("id", .string "1")])) ({}, ()) = some (_, (_, ())) from rfl)
  refine ⟨⟨by decide, notes_distinct, ⟨rfl, by decide, by decide⟩, ?_⟩,
    notes_wellNamed, notes_distinct, ⟨rfl, by decide, by decide⟩, ?_⟩
  · exact ⟨_, _, .map [("id", .string "1"), ("tag", .string "-")], _, hstamped, noteKeys_tellsApart _,
      rfl, rfl, rfl, rfl, rfl⟩
  · exact ⟨_, _, .map [("id", .string "1"), ("tag", .string "-")], hforgetful, noteKeys_tellsApart _, rfl, rfl, rfl⟩

end Records

end KeyedRecords
