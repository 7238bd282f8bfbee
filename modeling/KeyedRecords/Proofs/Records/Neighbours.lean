import KeyedRecords.Proofs.Records.Listing
import KeyedRecords.Proofs.Records.Requests
import KeyedRecords.Proofs.Store.Alongside
import KeyedRecords.Proofs.Store.Partition

/-! Models with keys of no declaration of their own share a table, each in the partition of its qualified name. What is
asked of one stays within its partition, as long as no filter names another, and what is asked of another stays outside,
so a client is told the same whatever clients of other models do and when. Main statements: `handle_asksShown`,
`Model.undisturbed`. -/

namespace KeyedRecords

open BoundQuery (textOf?)

/-! ## Filters that leave the partition to the keys -/

/-- Whether filters name no partition, given how the attribute of one is named. -/
def Arguments.OmitsPartition (name : String) (filters : Arguments) : Prop := name ∉ Assoc.keys filters

/-- Only a filter of the very name fixes the partition. -/
theorem FilterRules.name_of_partition {rules : FilterRules} {name text : String} {value : Json}
    (h : rules.meaning name value = .ok (.partition text)) : name = rules.partitionName :=
  (splitSuffix_none (split_of_partition h)).symm

theorem FilterRules.partition?_of_parseFrom {rules : FilterRules} {filters : Arguments}
    (homits : Arguments.OmitsPartition rules.partitionName filters) {read filter : KeyFilter}
    (h : rules.parseFrom read filters = .ok filter) : filter.partition? = read.partition? := by
  induction filters generalizing read with
  | nil =>
    cases h
    rfl
  | cons first rest ih =>
    obtain ⟨name, value⟩ := first
    have hname : name ≠ rules.partitionName := fun he => homits (he ▸ List.mem_cons_self)
    obtain ⟨meaning, hmeaning, hparse⟩ := parseFrom_cons.1 h
    rw [ih (fun hmem => homits (List.mem_cons_of_mem _ hmem)) hparse]
    cases meaning with
    | sort condition | field own given => rfl
    | partition text => exact absurd (name_of_partition hmeaning) hname

/-- A query that is bound reads the partition that it names. -/
theorem Query.bind_reads {query : Query} {layout : TableLayout} {bound : BoundQuery} (h : query.bind layout = .ok bound)
    {partition : String} (hpartition : query.partition? = some partition)
    (hname : query.partitionName = layout.partitionName) (hwhole : query.projection = []) :
    bound.Reads layout partition := by
  rw [bind, hpartition] at h
  cases h
  exact ⟨rfl, hname, rfl, hwhole⟩

/-- Whether a model is one that declares no keys: its records have the keys of its names. -/
def Model.Standard (model : Model) : Prop :=
  model.keys = (KeyTemplate.standard model.qualified model.name).strategy

theorem KeyTemplate.render_standard {qualified name : String} {args : Arguments} {text : String}
    (h : (KeyTemplate.standard qualified name).partition.render args name = .ok text) : text = qualified := by
  obtain ⟨more, hmore, rfl⟩ := Template.renderSegments_literal h
  cases hmore
  exact String.append_empty

theorem Model.Standard.partition {model : Model} (h : model.Standard) {args : Arguments} {key : Key}
    (hkey : model.keys.key args = .ok key) : key.partition = model.qualified := by
  rw [h] at hkey
  obtain ⟨partition, hpartition, hkey⟩ := bind_eq_ok.1 hkey
  obtain ⟨sort, -, hkey⟩ := bind_eq_ok.1 hkey
  cases hkey
  exact KeyTemplate.render_standard hpartition

namespace Records

variable {ρ : Type} {records : Records ρ} (hstandard : records.model.Standard)

include hstandard

theorem partition_of_encode {fields : Arguments} {key : Key} {data : Item}
    (h : records.encode fields = .ok (key, data)) : key.partition = records.model.qualified :=
  hstandard.partition (encode_eq_ok.1 h).1

theorem queryFor_standard {filters : Arguments}
    (homits : Arguments.OmitsPartition records.model.layout.partitionName filters) {query : Query}
    (h : records.queryFor filters = .ok query) : query.partition? = some records.model.qualified ∧
      query.partitionName = records.model.layout.partitionName ∧ query.projection = [] := by
  obtain ⟨translated, htranslated, h⟩ := bind_eq_ok.1 h
  have hown : translated.partition? = some records.model.qualified ∧
      translated.partitionName = records.model.layout.partitionName ∧ translated.projection = [] := by
    obtain ⟨filter, found, hparse, hresolve, -, rfl⟩ := FilterRules.toQuery_eq_ok.1 htranslated
    have hnone : filter.partition? = none := FilterRules.partition?_of_parseFrom homits hparse
    have hkeys : records.model.filterRules.keys =
        (KeyTemplate.standard records.model.qualified records.model.name).strategy := hstandard
    have hpartition := FilterRules.partition_of_resolve hkeys hnone hresolve
    exact ⟨congrArg some (KeyTemplate.render_standard hpartition), rfl, rfl⟩
  cases hstart : records.model.listingStart? with
  | none =>
    rw [hstart] at h
    cases h
    exact hown
  | some start =>
    rw [hstart] at h
    dsimp only at h
    split at h
    · cases h
      exact hown
    · cases h
      exact hown

theorem queryFor_reads {filters : Arguments}
    (homits : Arguments.OmitsPartition records.model.layout.partitionName filters) {query : Query}
    (hquery : records.queryFor filters = .ok query) {bound : BoundQuery}
    (hbound : query.bind records.model.layout = .ok bound) :
    bound.Reads records.model.layout records.model.qualified := by
  obtain ⟨hpartition, hname, hwhole⟩ := queryFor_standard hstandard homits hquery
  exact Query.bind_reads hbound hpartition hname hwhole

theorem pageQuery_reads {filters : Arguments}
    (homits : Arguments.OmitsPartition records.model.layout.partitionName filters) {cursor? : Option Cursor}
    {limit : Nat} {bound : BoundQuery} (h : records.pageQuery filters cursor? limit = .ok bound) :
    bound.Reads records.model.layout records.model.qualified := by
  obtain ⟨query, hquery, h⟩ := bind_eq_ok.1 h
  obtain ⟨hpartition, hname, hwhole⟩ := queryFor_standard hstandard homits hquery
  cases cursor? with
  | none => exact Query.bind_reads h hpartition hname hwhole
  | some cursor =>
    obtain ⟨start, -, h⟩ := bind_eq_ok.1 h
    exact Query.bind_reads h hpartition hname hwhole

end Records

/-! ## What is asked for a model -/

/-- Whether what is selected is left to filters that name no partition. -/
def RecordSelection.OmitsPartition (name : String) : RecordSelection → Prop
  | .filters own => own.OmitsPartition name
  | .query _ => False

/-- Whether a request names no partition and brings no query of its own. -/
def RecordRequest.OmitsPartition {ρ : Type} (name : String) : RecordRequest ρ → Prop
  | .single _ | .createRecord _ => True
  | .collect selection _ | .stream selection _ _ => selection.OmitsPartition name
  | .page filters _ _ | .deleteAll filters => filters.OmitsPartition name

/-- Whether all calls on the partition of a model are of a kind. -/
structure Model.PartitionCalls (model : Model) (P : Call → Prop) : Prop where
  getItem : ∀ key, key.partition = model.qualified → P (.getItem model.layout key)
  deleteItem : ∀ key, key.partition = model.qualified → P (.deleteItem model.layout key)
  query : ∀ query : BoundQuery, query.Reads model.layout model.qualified → P (.query query)
  created : ∀ key data time, key.partition = model.qualified →
    P (.putItem model.layout (model.layout.newItem key data time) (some .absent))
  saved : ∀ key data time, key.partition = model.qualified →
    P (.putItem model.layout (Assoc.insert (model.layout.newItem key data time) updatedName (.string time)) none)
  updated : ∀ key written time, key.partition = model.qualified →
    P (.updateItem model.layout key (Update.set (Records.updateItem model.layout written time)) (some .present))

theorem Model.PartitionCalls.and {model : Model} {P Q : Call → Prop} (h : model.PartitionCalls P)
    (h' : model.PartitionCalls Q) : model.PartitionCalls fun call => P call ∧ Q call where
  getItem key hkey := ⟨h.getItem key hkey, h'.getItem key hkey⟩
  deleteItem key hkey := ⟨h.deleteItem key hkey, h'.deleteItem key hkey⟩
  query query hreads := ⟨h.query query hreads, h'.query query hreads⟩
  created key data time hkey := ⟨h.created key data time hkey, h'.created key data time hkey⟩
  saved key data time hkey := ⟨h.saved key data time hkey, h'.saved key data time hkey⟩
  updated key written time hkey := ⟨h.updated key written time hkey, h'.updated key written time hkey⟩

/-- Whether an item has itself in the partition of a model. -/
def Model.Shows (model : Model) (item : Item) : Prop :=
  textOf? item model.layout.partitionName = some model.qualified

namespace Records

open Command

variable {ρ : Type} {records : Records ρ} {P : Call → Prop} (hstandard : records.model.Standard)
  (h : records.model.PartitionCalls P)

include hstandard h

theorem perform_partition (call : RecordCall ρ) : Asks P (records.perform call) := by
  have hput : ∀ {fields key data}, records.encode fields = .ok (key, data) → ∀ time,
      P (.putItem records.model.layout (records.model.layout.newItem key data time) (some .absent)) :=
    fun hencode time => h.created _ _ time (partition_of_encode hstandard hencode)
  cases call with
  | create fields => exact (create_asks_of hput).map _
  | get args => exact (get_asks_of fun hkey => h.getItem _ (hstandard.partition hkey)).map _
  | update args => exact (update_asks_of fun hkey _ time => h.updated _ _ time (hstandard.partition hkey)).map _
  | delete args => exact (delete_asks_of fun hkey => h.deleteItem _ (hstandard.partition hkey)).map _
  | remove record => exact (remove_asks_of fun hkey => h.deleteItem _ (hstandard.partition hkey)).map _
  | save record =>
    refine Asks.map ?_ _
    cases hid : records.form.id? record with
    | none =>
      simp only [save, hid]
      exact createRecord_asks_of hput
    | some id =>
      exact save_asks_of hid fun _ hencode time => h.saved _ _ time (partition_of_encode hstandard hencode)

/-- The keys that are deleted are those of items that were read in the partition. -/
theorem deleteAll_asksShown {filters : Arguments}
    (homits : filters.OmitsPartition records.model.layout.partitionName) :
    AsksShown P records.model.Shows (records.deleteAll filters) := by
  refine asksShown_result_bind fun query hquery => asksShown_result_bind fun bound hbound => ?_
  have hreads := queryFor_reads hstandard homits hquery hbound
  refine asksShown_readPages_bind (fun startKey? => h.query _ (hreads.startAt startKey?)) ?_
  intro items failure? hitems
  cases failure? with
  | some e => trivial
  | none =>
    refine (deleteKeys_asks_of fun key hkey => h.deleteItem key ?_).asksShown
    obtain ⟨item, hitem, hown⟩ := List.mem_filterMap.1 hkey
    exact Option.some.inj ((TableLayout.keyOf?_eq_some_iff_texts.1 hown).1.symm.trans (hitems item hitem))

/-- What serves a request makes calls on the partition of the model alone. -/
theorem handle_asksShown {request : RecordRequest ρ}
    (homits : request.OmitsPartition records.model.layout.partitionName) :
    AsksShown P records.model.Shows (records.handle request) := by
  have hlisted : ∀ {keep : ρ → Bool} {selection : RecordSelection} {listing : Listing ρ},
      selection.OmitsPartition records.model.layout.partitionName → records.select keep selection = .ok listing →
        ∀ startKey?, P (.query { listing.query with startKey? := startKey? }) := by
    intro keep selection listing homits hselect startKey?
    cases selection with
    | query query => exact homits.elim
    | filters filters =>
      obtain ⟨query, hquery, hselect⟩ := bind_eq_ok.1 hselect
      obtain ⟨bound, hbound, hselect⟩ := bind_eq_ok.1 hselect
      cases hselect
      exact h.query _ ((queryFor_reads hstandard homits hquery hbound).startAt startKey?)
  cases request with
  | single call => exact ((perform_partition hstandard h call).map _).asksShown
  | createRecord record =>
    refine (Asks.map (createRecord_asks_of fun hencode time => ?_) _).asksShown
    exact h.created _ _ time (partition_of_encode hstandard hencode)
  | collect selection keep =>
    exact (asks_result_bind fun listing hlisting => (collect_asks_of (hlisted homits hlisting)).map _).asksShown
  | stream selection keep count? =>
    exact (asks_result_bind fun listing hlisting =>
      (stream_asks_of (hlisted homits hlisting) count?).map _).asksShown
  | page filters cursor? limit =>
    exact ((page_asks_of fun hbound => h.query _ (pageQuery_reads hstandard homits hbound)).map _).asksShown
  | deleteAll filters => exact (deleteAll_asksShown hstandard h homits).map _

end Records

/-! ## Within one partition and outside of another -/

/-- Whether the texts that a model writes to an attribute of its items are its qualified name and no other. -/
structure TableLayout.Reserves (layout : TableLayout) (name : String) : Prop where
  sort : name ≠ layout.sortName
  created : name ≠ createdName
  updated : name ≠ updatedName

namespace TableLayout

variable {layout : TableLayout} {name : String} (h : layout.Reserves name) {key : Key} {data : Item} {time : String}

include h

theorem textOf?_newItem {text : String} (htext : textOf? (layout.newItem key data time) name = some text) :
    text = key.partition := by
  have hown : textOf? (Assoc.insert (Assoc.insert [] layout.partitionName (.string key.partition)) layout.sortName
      (.string key.sort)) name = some text :=
    textOf?_eq_some_iff.2 (find?_newItem_text h.created (textOf?_eq_some_iff.1 htext))
  rw [textOf?_insert, if_neg h.sort, textOf?_insert] at hown
  split at hown
  · exact (Option.some.inj hown).symm
  · cases hown

theorem textOf?_stampedItem {text : String}
    (htext : textOf? (Assoc.insert (layout.newItem key data time) updatedName (.string time)) name = some text) :
    text = key.partition := by
  rw [textOf?_insert, if_neg h.updated] at htext
  exact textOf?_newItem h htext

/-- The update of a record sets its data and the time only. -/
theorem lastSet?_updateItem {written : Item} {value : Attribute}
    (hvalue : value ∈ (Update.set (Records.updateItem layout written time)).lastSet? name) :
    value.asString? = none := by
  obtain ⟨entry, hentry, hname, rfl⟩ := Update.exists_of_lastSet?_set hvalue
  have hentries : entry.1 = updatedName ∨ ∃ entries, entry.2 = .map entries := by
    cases written with
    | nil =>
      cases List.mem_singleton.1 hentry
      exact Or.inl rfl
    | cons first rest =>
      refine (mem_insert_stamped (Assoc.ofList_ne_nil ?_) entry hentry).imp_right
        fun ⟨_, entries, hmap, _⟩ => ⟨entries, hmap⟩
      exact List.cons_ne_nil _ _
  rcases hentries with hupdated | ⟨entries, hmap⟩
  · have hunmark : unmark updatedName = (updatedName, false) := by decide
    rw [hupdated, hunmark] at hname
    exact absurd hname.symm h.updated
  · rw [hmap]
    rfl

omit h in
theorem partition_of_newItem (hown : layout.Reserves layout.partitionName) {own : Key}
    (hcarried : layout.keyOf? (layout.newItem key data time) = some own) : own.partition = key.partition :=
  textOf?_newItem hown (keyOf?_eq_some_iff_texts.1 hcarried).1

omit h in
theorem partition_of_stampedItem (hown : layout.Reserves layout.partitionName) {own : Key}
    (hcarried : layout.keyOf? (Assoc.insert (layout.newItem key data time) updatedName (.string time)) = some own) :
    own.partition = key.partition :=
  textOf?_stampedItem hown (keyOf?_eq_some_iff_texts.1 hcarried).1

end TableLayout

/-- Whether another model that declares no keys shares the table of a model under another qualified name, and writes no
texts but that name to the attributes that the two have their partitions in. -/
structure Model.Beside (model other : Model) : Prop where
  standard : other.Standard
  qualified : model.qualified ≠ other.qualified
  table : model.layout.table = other.layout.table
  own : other.layout.Reserves other.layout.partitionName
  reserves : other.layout.Reserves model.layout.partitionName

namespace Model

theorem calls_within {model : Model} (hown : model.layout.Reserves model.layout.partitionName) :
    model.PartitionCalls (Call.Within model.layout model.qualified) where
  getItem _ hkey := ⟨rfl, hkey⟩
  deleteItem _ hkey := ⟨rfl, hkey⟩
  query _ hreads := hreads
  created _ _ _ hkey := ⟨rfl, fun _ hcarried => (TableLayout.partition_of_newItem hown hcarried).trans hkey⟩
  saved _ _ _ hkey := ⟨rfl, fun _ hcarried => (TableLayout.partition_of_stampedItem hown hcarried).trans hkey⟩
  updated _ _ _ hkey := ⟨rfl, hkey⟩

theorem Beside.calls_outside {model other : Model} (h : model.Beside other) :
    other.PartitionCalls (Call.Outside model.layout model.qualified) := by
  have hne : ∀ {text : String}, text = other.qualified → text ≠ model.qualified :=
    fun htext he => h.qualified (he.symm.trans htext)
  exact {
    getItem := fun _ _ => trivial
    deleteItem := fun _ hkey => ⟨h.table.symm, hne hkey⟩
    query := fun _ _ => trivial
    created := fun _ _ _ hkey => ⟨h.table.symm,
      fun _ hcarried => hne ((TableLayout.partition_of_newItem h.own hcarried).trans hkey),
      fun htext => hne ((TableLayout.textOf?_newItem h.reserves htext).trans hkey) rfl⟩
    saved := fun _ _ _ hkey => ⟨h.table.symm,
      fun _ hcarried => hne ((TableLayout.partition_of_stampedItem h.own hcarried).trans hkey),
      fun htext => hne ((TableLayout.textOf?_stampedItem h.reserves htext).trans hkey) rfl⟩
    updated := fun _ _ _ hkey => ⟨h.table.symm, hne hkey, rfl, rfl,
      fun _ hvalue => TableLayout.lastSet?_updateItem h.reserves hvalue⟩ }

/-! ## Clients -/

/-- The programs of clients that make requests of a model one after another, each chosen by the results so far and none
naming a partition. -/
inductive ClientOf (model : Model) {α : Type} : Program α → Prop
  | done (result : α) : ClientOf model (.done result)
  | next {ρ : Type} {records : Records ρ} (hmodel : records.model = model) {request : RecordRequest ρ}
      (homits : request.OmitsPartition model.layout.partitionName) {rest : Result (RecordResponse ρ) → Program α}
      (hrest : ∀ result, ClientOf model (rest result)) : ClientOf model ((records.handle request).run.bind rest)

theorem ClientOf.asksShown {model : Model} (hstandard : model.Standard) {P : Call → Prop}
    (h : model.PartitionCalls P) {α : Type} {client : Program α} (hclient : model.ClientOf client) :
    client.AsksShown P model.Shows := by
  induction hclient with
  | done result => trivial
  | next hmodel homits _ ih =>
    subst hmodel
    exact Program.AsksShown.bind (Records.handle_asksShown hstandard h homits) ih

/-- Whether a program is a client of some model beside this one. -/
def HasNeighbour (model : Model) {α : Type} (client : Program α) : Prop :=
  ∃ other : Model, model.Beside other ∧ other.ClientOf client

end Model

/-! ## Turns -/

section Turns

variable {model : Model} {α ε : Type} (environment : Environment ε)

/-- The items on a page of a partition have themselves there. -/
theorem Environment.shows_page {layout : TableLayout} {partition : String} {query : BoundQuery}
    (hreads : query.Reads layout partition) {state : Memory × ε} {page : Page}
    (h : (environment.host.answer (.query query) state).1 = .ok page) :
    ∀ item ∈ page.items, textOf? item layout.partitionName = some partition := by
  cases Except.ok.inj h
  intro item hitem
  have htext := BoundQuery.textOf?_of_mem_page hreads.whole hitem
  rwa [hreads.name, hreads.partition] at htext

/-- Whether the store of a run and one that a client has to itself are alike in the partition of a model. -/
def Model.AlikeFor (model : Model) (state : Memory × ε) (alone : Memory × Unit) : Prop :=
  Memory.Alike model.layout model.qualified state.1 alone.1

/-- A step of a client is the same in a store that is alike in its partition. -/
theorem Model.own_step {p : Program α}
    (hp : p.AsksShown (Call.Within model.layout model.qualified) model.Shows ∧ p.StoreOnly)
    {state : Memory × ε} {alone : Memory × Unit} (h : model.AlikeFor state alone) :
    (environment.host.advance p state).1 = (Environment.still.host.advance p alone).1 ∧
      ((environment.host.advance p state).1.AsksShown (Call.Within model.layout model.qualified) model.Shows ∧
        (environment.host.advance p state).1.StoreOnly) ∧
      model.AlikeFor (environment.host.advance p state).2 (Environment.still.host.advance p alone).2 := by
  obtain ⟨hasks, honly⟩ := hp
  have hanswer : ∀ call (state : Memory × ε) (alone : Memory × Unit),
      call.Within model.layout model.qualified → model.AlikeFor state alone →
      (environment.host.answer call state).1 = (Environment.still.host.answer call alone).1 ∧
        model.AlikeFor (environment.host.answer call state).2 (Environment.still.host.answer call alone).2 := by
    intro call state alone hcall h
    exact ((h.counted call.kind).symm.counted call.kind).symm.within hcall
  obtain ⟨hsame, hafter⟩ := Host.advance_alike hanswer hasks honly h
  exact ⟨hsame, ⟨hasks.advance fun query state page hreads => environment.shows_page hreads, honly.advance⟩, hafter⟩

/-- A step of a client of another model beside leaves the store alike in the partition. -/
theorem Model.other_step {other : Model} {p : Program α}
    (hp : p.AsksShown (fun call => call.Within other.layout other.qualified ∧
      call.Outside model.layout model.qualified) other.Shows)
    {state : Memory × ε} {alone : Memory × Unit} (h : model.AlikeFor state alone) :
    (environment.host.advance p state).1.AsksShown (fun call => call.Within other.layout other.qualified ∧
        call.Outside model.layout model.qualified) other.Shows ∧
      model.AlikeFor (environment.host.advance p state).2 alone := by
  refine ⟨hp.advance fun query state page hcall => environment.shows_page hcall.1, ?_⟩
  exact Host.advance_spares (R := model.AlikeFor)
    (fun call state alone hcall h => (h.counted call.kind).outside hcall.2) (fun _ _ h => h) (fun _ _ h => h) hp h

/-- Among clients of models beside its own a client comes to what it comes to alone. -/
theorem Model.interleave_beside (hstandard : model.Standard)
    (hown : model.layout.Reserves model.layout.partitionName) {client : Program α} (hclient : model.ClientOf client)
    {supplies : Type} (supply : Environment supplies) (seed : supplies) (turns : List Nat) {others : List (Program α)}
    (hothers : ∀ other ∈ others, model.HasNeighbour other) (e : ε) :
    (environment.host.interleave turns (client.supplied supply seed :: others) ({}, e)).1.head? =
      some (Environment.still.host.alone (turns.count 0) (client.supplied supply seed) ({}, ())).1 := by
  have hasks := (hclient.asksShown hstandard (calls_within hown)).supplied supply seed
  refine Host.interleave_alone (R := model.AlikeFor)
    (F := fun p => p.AsksShown (Call.Within model.layout model.qualified) model.Shows ∧ p.StoreOnly)
    (G := fun p => ∃ other, model.Beside other ∧ p.AsksShown (fun call =>
      call.Within other.layout other.qualified ∧ call.Outside model.layout model.qualified) other.Shows)
    (fun p state alone hp h => own_step environment hp h) ?_ turns
    ⟨hasks, Program.supplied_storeOnly supply client seed⟩ ?_ (Memory.alike_empty _ _)
  · rintro p state alone ⟨other, hbeside, hp⟩ h
    obtain ⟨hnext, hafter⟩ := other_step environment hp h
    exact ⟨⟨other, hbeside, hnext⟩, hafter⟩
  · intro q hq
    obtain ⟨other, hbeside, hq⟩ := hothers q hq
    exact ⟨other, hbeside, hq.asksShown hbeside.standard
      ((calls_within hbeside.own).and hbeside.calls_outside)⟩

end Turns

/-! ## Clients of notes -/

namespace Records

def notesOf (qualified : String) (layout : TableLayout) : Records Json :=
  { notes with model := { notes.model with
      qualified := qualified, layout := layout, keys := (KeyTemplate.standard qualified "Note").strategy } }

/-- A client that makes some requests and keeps the results, in their order. -/
def clientFor (records : Records Json) :
    List (RecordRequest Json) → List (Result (RecordResponse Json)) → Program (List (Result (RecordResponse Json)))
  | [], results => .done results
  | request :: rest, results =>
    (records.handle request).run.bind fun result => records.clientFor rest (results ++ [result])

theorem clientFor_clientOf (records : Records Json) {requests : List (RecordRequest Json)}
    (homits : ∀ request ∈ requests, request.OmitsPartition records.model.layout.partitionName)
    (results : List (Result (RecordResponse Json))) : records.model.ClientOf (records.clientFor requests results) := by
  induction requests generalizing results with
  | nil => exact .done results
  | cons request rest ih =>
    obtain ⟨hrequest, hrest⟩ := List.forall_mem_cons.1 homits
    exact .next rfl hrequest fun result => ih hrest _

end Records

open Records

def createdNote : Json := .map [("id", .string "1"), ("tag", .string "-")]

def noteRequests : List (RecordRequest Json) :=
  [.single (.create [("id", .string "1")]), .collect (.filters []) fun _ => true, .deleteAll []]

def draftRequests : List (RecordRequest Json) :=
  [.single (.create [("id", .string "1")]), .single (.update [("id", .string "1"), ("text", .string "draft")]),
    .deleteAll []]

/-- What a client of a model comes to in so many turns, and to which end, does not depend on the clients of other models
beside its own: on what they do, in which turns, or at which times. -/
theorem Model.undisturbed {model : Model} (hstandard : model.Standard)
    (hown : model.layout.Reserves model.layout.partitionName) {α : Type} {client : Program α}
    (hclient : model.ClientOf client) {supplies : Type} (supply : Environment supplies) (seed : supplies) {ε ε' : Type}
    (environment : Environment ε) (environment' : Environment ε') (e : ε) (e' : ε')
    {others others' : List (Program α)} (hothers : ∀ other ∈ others, model.HasNeighbour other)
    (hothers' : ∀ other ∈ others', model.HasNeighbour other) (turns turns' : List Nat) :
    let first := (environment.host.interleave turns (client.supplied supply seed :: others) ({}, e)).1.head?
    let second := (environment'.host.interleave turns' (client.supplied supply seed :: others') ({}, e')).1.head?
    (turns.count 0 = turns'.count 0 → first = second) ∧
      ∀ results results', first = some (.done results) → second = some (.done results') → results = results' := by
  intro first second
  have hfirst : first = _ := interleave_beside environment hstandard hown hclient supply seed turns hothers e
  have hsecond : second = _ := interleave_beside environment' hstandard hown hclient supply seed turns' hothers' e'
  constructor
  · intro hcount
    rw [hfirst, hsecond, hcount]
  · intro results results' hresults hresults'
    exact Host.alone_done_unique (Option.some.inj (hfirst.symm.trans hresults))
      (Option.some.inj (hsecond.symm.trans hresults'))

/-- Drafts with the same names come and go in the table, and the notes are created, listed and deleted as if there were
none. -/
theorem Model.undisturbed_drafts :
    let drafts := notesOf "draft::Note" notes.model.layout
    (Environment.still.host.interleave [1, 1, 0, 1, 1, 0, 1, 0, 1, 0]
      [(notes.clientFor noteRequests []).supplied Environment.still (), drafts.clientFor draftRequests []] ({}, ())).1.head? =
      some (.done [.ok (.answer (.record createdNote)), .ok (.records [createdNote]), .ok (.answer (.count 1))]) ∧
    ((Environment.still.host.interleave [1, 1, 0]
      [(notes.clientFor noteRequests []).supplied Environment.still (), drafts.clientFor draftRequests []]
        ({}, ())).2.1.item? drafts.model.layout ⟨"draft::Note", "Note#1"⟩).isSome := by
  intro drafts
  have homits : ∀ request ∈ noteRequests, request.OmitsPartition notes.model.layout.partitionName := by
    simp [noteRequests, RecordRequest.OmitsPartition, RecordSelection.OmitsPartition, Arguments.OmitsPartition,
      Assoc.keys]
  have hdrafts : ∀ request ∈ draftRequests, request.OmitsPartition drafts.model.layout.partitionName := by
    simp [draftRequests, RecordRequest.OmitsPartition, Arguments.OmitsPartition, Assoc.keys]
  have hreserves : notes.model.layout.Reserves notes.model.layout.partitionName := ⟨by decide, by decide, by decide⟩
  have hbeside : notes.model.Beside drafts.model := ⟨rfl, by decide, rfl, hreserves, hreserves⟩
  have hneighbours : ∀ other ∈ [drafts.clientFor draftRequests []], notes.model.HasNeighbour other := by
    intro other hother
    cases List.mem_singleton.1 hother
    exact ⟨drafts.model, hbeside, clientFor_clientOf drafts hdrafts []⟩
  have hnobody : ∀ other ∈ ([] : List (Program (List (Result (RecordResponse Json))))),
      notes.model.HasNeighbour other := by
    simp
  have hstandard : notes.model.Standard := rfl
  have hsame := (Model.undisturbed hstandard hreserves (clientFor_clientOf notes homits []) Environment.still ()
    Environment.still Environment.still () () hneighbours hnobody [1, 1, 0, 1, 1, 0, 1, 0, 1, 0] [0, 0, 0, 0]).1 rfl
  have halone : (Environment.still.host.interleave [0, 0, 0, 0]
      [(notes.clientFor noteRequests []).supplied Environment.still ()] ({}, ())).1.head? =
      some (.done [.ok (.answer (.record createdNote)), .ok (.records [createdNote]), .ok (.answer (.count 1))]) := by
    with_unfolding_all rfl
  refine ⟨hsame.trans halone, ?_⟩
  decide

/-! ## Names that make for disturbance -/

/-- Whether a client of a model comes to something else where one of another takes turns with it, though the two share a
table under names of their own. -/
def Model.DisturbedBy (model other : Model) : Prop :=
  model.Standard ∧ other.Standard ∧ model.qualified ≠ other.qualified ∧ model.layout.table = other.layout.table ∧
    ∃ (client neighbour : Program (List (Result (RecordResponse Json)))) (turns : List Nat),
      model.ClientOf client ∧ other.ClientOf neighbour ∧
        (Environment.still.host.interleave turns [client.supplied Environment.still (), neighbour] ({}, ())).1.head? ≠
          (Environment.still.host.interleave turns [client.supplied Environment.still ()] ({}, ())).1.head?

theorem Model.disturbedBy_of_results {qualified other : String} {layout otherLayout : TableLayout}
    (hqualified : qualified ≠ other) (htable : layout.table = otherLayout.table)
    (requests otherRequests : List (RecordRequest Json))
    (homits : ∀ request ∈ requests, request.OmitsPartition layout.partitionName)
    (hothers : ∀ request ∈ otherRequests, request.OmitsPartition otherLayout.partitionName) (turns : List Nat)
    (results alone : List (Result (RecordResponse Json)))
    (hresults : (Environment.still.host.interleave turns
      [((notesOf qualified layout).clientFor requests []).supplied Environment.still (),
        (notesOf other otherLayout).clientFor otherRequests []] ({}, ())).1.head? = some (.done results))
    (halone : (Environment.still.host.interleave turns
      [((notesOf qualified layout).clientFor requests []).supplied Environment.still ()] ({}, ())).1.head? =
        some (.done alone)) (hne : results ≠ alone) :
    Model.DisturbedBy (notesOf qualified layout).model (notesOf other otherLayout).model := by
  refine ⟨rfl, rfl, hqualified, htable, _, _, turns, clientFor_clientOf _ homits [],
    clientFor_clientOf _ hothers [], ?_⟩
  rw [hresults, halone]
  exact fun h => hne (Program.done.inj (Option.some.inj h))

def createOne : List (RecordRequest Json) := [.single (.create [("id", .string "1")])]

def saveOne : List (RecordRequest Json) := [.single (.save (.map [("id", .string "1")]))]

def listAll : List (RecordRequest Json) := [.collect (.filters []) fun _ => true]

/-- A note cannot be created beside a draft where the sort key or a time is all that the partition attribute holds, and
drafts are listed as notes where their sort keys are the partition of the notes. -/
theorem Model.disturbed_by_names :
    Model.DisturbedBy (notesOf "app::Note" { table := "notes", partitionName := "k", sortName := "k" }).model
      (notesOf "draft::Note" { table := "notes", partitionName := "k", sortName := "k" }).model ∧
    Model.DisturbedBy (notesOf "app::Note" { table := "notes", partitionName := "created" }).model
      (notesOf "draft::Note" { table := "notes", partitionName := "created" }).model ∧
    Model.DisturbedBy (notesOf "1970-01-01T00:00:00Z" { table := "notes", partitionName := "updatedAt" }).model
      (notesOf "draft::Note" { table := "notes", partitionName := "updatedAt" }).model ∧
    Model.DisturbedBy (notesOf "Note#1" { table := "notes" }).model
      (notesOf "draft::Note" { table := "notes", partitionName := "sk", sortName := "pk" }).model := by
  have hcreates : ∀ name, ∀ request ∈ createOne, request.OmitsPartition name := by
    simp [createOne, RecordRequest.OmitsPartition]
  have hsaves : ∀ name, ∀ request ∈ saveOne, request.OmitsPartition name := by
    simp [saveOne, RecordRequest.OmitsPartition]
  have hlists : ∀ name, ∀ request ∈ listAll, request.OmitsPartition name := by
    simp [listAll, RecordRequest.OmitsPartition, RecordSelection.OmitsPartition, Arguments.OmitsPartition, Assoc.keys]
  refine ⟨?_, ?_, ?_, ?_⟩
  · exact Model.disturbedBy_of_results (by decide) rfl createOne createOne (hcreates _) (hcreates _) [1, 1, 0]
      [.error (.duplicateRecord "Note" ⟨"app::Note", "Note#1"⟩)] [.ok (.answer (.record createdNote))] rfl rfl (by simp)
  · exact Model.disturbedBy_of_results (by decide) rfl createOne createOne (hcreates _) (hcreates _) [1, 1, 0]
      [.error (.duplicateRecord "Note" ⟨"app::Note", "Note#1"⟩)] [.ok (.answer (.record createdNote))] rfl rfl (by simp)
  · exact Model.disturbedBy_of_results (by decide) rfl createOne saveOne (hcreates _) (hsaves _) [1, 1, 0]
      [.error (.duplicateRecord "Note" ⟨"1970-01-01T00:00:00Z", "Note#1"⟩)]
      [.ok (.answer (.record createdNote))] rfl rfl (by simp)
  · exact Model.disturbedBy_of_results (by decide) rfl listAll createOne (hlists _) (hcreates _) [1, 1, 0]
      [.ok (.records [createdNote])] [.ok (.records [])] (by with_unfolding_all rfl) (by with_unfolding_all rfl)
      (by simp)

end KeyedRecords
