import KeyedRecords.Proofs.Records.Keyed
import KeyedRecords.Proofs.Records.Operations
import KeyedRecords.Proofs.Records.Simulation
import KeyedRecords.Proofs.Schema.Rewriting

/-! Where the items of records come from. Of each call it is known which arguments it makes a key of to write under. If
the keys of those in a run can be told apart, each item is `MadeFrom` some of them: it lies under their key, its record
has their key fields, and can be written anew. Main statements: `Makes.reply`, `Run.made`. -/

namespace KeyedRecords

/-- Whether arguments with one key have the same key fields. -/
def KeyTemplate.TellsApart (keys : KeyTemplate) (origins : List Arguments) : Prop :=
  ∀ args ∈ origins, ∀ other ∈ origins, ∀ key, keys.key args = .ok key → keys.key other = .ok key →
    ∀ name ∈ keys.fields, args.segment? name = other.segment? name

theorem KeyTemplate.TellsApart.mono {keys : KeyTemplate} {origins more : List Arguments} (h : keys.TellsApart more)
    (hsub : origins ⊆ more) : keys.TellsApart origins :=
  fun args hargs other hother => h args (hsub hargs) other (hsub hother)

/-- Keys that can be read back are told apart. -/
theorem KeyTemplate.tellsApart_of_readable {keys : KeyTemplate} {words : Vocabulary} (hreadable : keys.Readable words)
    {origins : List Arguments} (hwords : ∀ args ∈ origins, words.Admits keys.fields args) : keys.TellsApart origins :=
  fun args hargs other hother _ hkey hsame =>
    KeyTemplate.key_injective hreadable (hwords args hargs) (hwords other hother) hkey hsame

namespace Records

variable {ρ ε : Type} (records : Records ρ)

/-! ## Calls and their arguments -/

def createArguments (environment : Environment ε) (fields : Arguments) (e : ε) : Arguments :=
  Assoc.ofList (records.shape (RecordMap.identified environment fields e).1)

/-- The arguments that a call makes a key of to write a record under it. -/
def keyArguments (environment : Environment ε) : RecordCall ρ → ε → List Arguments
  | .create fields, e => [records.createArguments environment fields e]
  | .update args, _ => [args]
  | .save record, e =>
    match records.fieldsOf record with
    | .error _ => []
    | .ok fields =>
      if (records.form.id? record).isNone then [records.createArguments environment fields e] else [fields]
  | .get _, _ | .delete _, _ | .remove _, _ => []

/-- Whether a call writes nothing but what is made of some arguments, under their key. -/
inductive Makes (origins : List Arguments) : Call → Prop
  | getItem (key : Key) : Makes origins (.getItem records.model.layout key)
  | query (query : BoundQuery) : Makes origins (.query query)
  | deleteItem (key : Key) : Makes origins (.deleteItem records.model.layout key)
  | stored {args : Arguments} {key : Key} {data item : Item} {time : String} (hargs : args ∈ origins)
      (hencode : records.encode args = .ok (key, data))
      (hitem : item = records.model.layout.newItem key data time ∨
        item = Assoc.insert (records.model.layout.newItem key data time) updatedName (.string time))
      (condition? : Option Precondition) : Makes origins (.putItem records.model.layout item condition?)
  | changed {args : Arguments} {key : Key} {written : Item} (hargs : args ∈ origins)
      (hkey : records.model.keys.key args = .ok key)
      (hwritten : records.model.schema.encodePartial records.model.name (changes args) = .ok written)
      (time : String) : Makes origins (.updateItem records.model.layout key
        (Update.set (updateItem records.model.layout written time)) (some .present))

/-- Whether an item is made of some arguments: it lies under the key of some of them, it reads as a record that has
their key fields, and the record can be written anew. -/
structure MadeFrom (keys : KeyTemplate) (origins : List Arguments) (key : Key) (item : Item) (value : Json.Map) :
    Prop where
  data : ∃ data, records.model.layout.dataOf? item = some data ∧
    records.model.schema.decode data = .ok (.map value)
  origin : ∃ args ∈ origins, keys.key args = .ok key ∧
    ∀ name ∈ keys.fields, Arguments.segment? value name = args.segment? name
  rewritable : records.model.schema.Rewritable value

/-- Whether the tables are in order and the items of records all made of some arguments. -/
structure Made (keys : KeyTemplate) (origins : List Arguments) (memory : Memory) : Prop where
  sorted : memory.Sorted
  items : ∀ key item, memory.item? records.model.layout key = some item →
    ∃ value, records.MadeFrom keys origins key item value

variable {records} {keys : KeyTemplate} {origins more : List Arguments} {key : Key} {item : Item} {value : Json.Map}
  {memory after : Memory}

theorem MadeFrom.mono (h : records.MadeFrom keys origins key item value) (hsub : origins ⊆ more) :
    records.MadeFrom keys more key item value := by
  obtain ⟨args, hargs, horigin⟩ := h.origin
  exact ⟨h.data, ⟨args, hsub hargs, horigin⟩, h.rewritable⟩

/-- The record of an item makes the key that the item lies under. -/
theorem MadeFrom.own_key (h : records.MadeFrom keys origins key item value) : keys.key value = .ok key := by
  obtain ⟨args, -, hkey, hsegments⟩ := h.origin
  exact (KeyTemplate.key_congr hsegments).trans hkey

theorem MadeFrom.read (h : records.MadeFrom keys origins key item value) :
    records.read item = records.recordOf value := by
  obtain ⟨data, hdata, hdecode⟩ := h.data
  exact read_of_data hdata hdecode

theorem Made.empty : records.Made keys origins {} where
  sorted := Memory.sorted_empty
  items _ _ h := by cases h

theorem Made.mono (h : records.Made keys origins memory) (hsub : origins ⊆ more) : records.Made keys more memory where
  sorted := h.sorted
  items key item hitem := by
    obtain ⟨value, hmade⟩ := h.items key item hitem
    exact ⟨value, hmade.mono hsub⟩

theorem Made.congr (h : records.Made keys origins memory) (htables : after.tables = memory.tables) :
    records.Made keys origins after where
  sorted := h.sorted.congr htables
  items key item hitem := h.items key item ((Memory.item?_congr htables _ key).symm.trans hitem)

theorem Made.store (h : records.Made keys origins memory) (hmade : records.MadeFrom keys origins key item value) :
    records.Made keys origins (memory.store records.model.layout key item) :=
  ⟨h.sorted.store _ key item, Memory.holds_store h.items ⟨value, hmade⟩⟩

theorem Made.remove (h : records.Made keys origins memory) (key : Key) :
    records.Made keys origins (memory.remove records.model.layout key) :=
  ⟨h.sorted.remove _ key, Memory.holds_remove h.items key⟩

/-! ## Items that are written -/

section Written

variable (hdistinct : records.model.schema.Distinct) (hnames : records.model.layout.WellNamed)
  (htemplated : Templated records.model keys)

include hdistinct hnames htemplated

theorem madeFrom_stored {args : Arguments} (hargs : args ∈ origins) {data : Item} {time : String}
    (hencode : records.encode args = .ok (key, data))
    (hitem : item = records.model.layout.newItem key data time ∨
      item = Assoc.insert (records.model.layout.newItem key data time) updatedName (.string time)) :
    ∃ value, records.MadeFrom keys origins key item value ∧ records.model.layout.keyOf? item = some key := by
  obtain ⟨value, hkeyed, hholds⟩ := keyed_of_encode hdistinct hnames hencode time
  have hheld : records.Holds key item value := by
    rcases hitem with rfl | rfl
    · exact hholds
    · exact hholds.stamped hnames time
  have hsegments := keyed_segments hdistinct htemplated hkeyed
  obtain ⟨-, hdata⟩ := encode_eq_ok.1 hencode
  obtain ⟨entries, pairs, hentries, -, hpairs, -⟩ := Schema.encode_eq_ok hdata
  cases hentries
  obtain ⟨pair, -, hvalue⟩ := bind_eq_ok.1 hkeyed
  cases hvalue
  exact ⟨_, ⟨hheld.data, ⟨args, hargs, hsegments⟩, Schema.rewritable_of_encode hdistinct hpairs⟩, hheld.key⟩

/-- An update of an item by arguments with its key leaves an item with that key. Under a marked name the data are not
even touched. -/
theorem MadeFrom.changed (h : records.MadeFrom keys origins key item value) (htells : keys.TellsApart origins)
    {args : Arguments} (hargs : args ∈ origins) (hkey : records.model.keys.key args = .ok key) {written : Item}
    (hwritten : records.model.schema.encodePartial records.model.name (changes args) = .ok written) {time : String}
    {next : Item} (happly : (Update.set (updateItem records.model.layout written time)).apply item = .ok next) :
    ∃ value, records.MadeFrom keys origins key next value := by
  obtain ⟨data, hdata, hdecode⟩ := h.data
  by_cases hmark : replaceMark.toList <:+ records.model.layout.dataName.toList
  · have hsame := (dataOf?_marked hnames hmark happly).trans hdata
    exact ⟨value, ⟨data, hsame, hdecode⟩, h.origin, h.rewritable⟩
  · rw [htemplated.strategy] at hkey
    obtain ⟨origin, horigin, hown, hsegments⟩ := h.origin
    have hagree : ∀ name ∈ keys.fields, Arguments.segment? value name = args.segment? name := by
      intro name hname
      rw [hsegments name hname, htells origin horigin args hargs key hown hkey name hname]
    obtain ⟨after, updated, hrun, -, hupdated, hoverlaid⟩ :=
      exists_updated hdistinct hnames hmark hdata hdecode hwritten time
    cases hrun.symm.trans happly
    refine ⟨_, ⟨updated, hupdated, hoverlaid⟩,
      ⟨args, hargs, hkey, overlaid_segments hdistinct htemplated hkey hagree⟩, ?_⟩
    exact h.rewritable.overlay hdistinct hwritten fun name => givenValue?_changes_private args

/-- What is made of some arguments stays so by calls that make nothing else. -/
theorem Makes.reply (htells : keys.TellsApart origins) (h : records.Made keys origins memory) {call : Call}
    (hcall : records.Makes origins call) : records.Made keys origins (memory.reply call).2 := by
  refine Memory.of_replies (P := fun _ after => records.Made keys origins after) fun reply after hreplies => ?_
  cases hcall with
  | getItem key =>
    cases hreplies
    exact h
  | query query =>
    cases hreplies
    exact h
  | deleteItem key =>
    cases hreplies with
    | missing => exact h
    | deleted => exact h.remove key
  | stored hargs hencode hitem condition? =>
    cases hreplies with
    | notPut => exact h
    | put hkey _ =>
      obtain ⟨value, hmade, hown⟩ := madeFrom_stored hdistinct hnames htemplated hargs hencode hitem
      cases hown.symm.trans hkey
      exact h.store hmade
  | changed hargs hkey hwritten time =>
    cases hreplies with
    | notUpdated => exact h
    | updated hcheck happly =>
      obtain ⟨old, hold⟩ := Memory.check_present hcheck
      rw [hold, Option.getD_some] at happly
      obtain ⟨value, hmade⟩ := h.items _ old hold
      obtain ⟨changed, hchanged⟩ := hmade.changed hdistinct hnames htemplated htells hargs hkey hwritten happly
      exact h.store hchanged

end Written

/-! ## Runs -/

theorem plainCalls_makes : records.PlainCalls (records.Makes origins) :=
  ⟨.getItem, fun query _ => .query query, .deleteItem⟩

/-- The stores that calls on records lead to, with the arguments that keys were made of to write under. Deleting and
reading make no such keys. -/
inductive Run (records : Records ρ) (environment : Environment ε) : List Arguments → Memory → Prop
  | empty : Run records environment [] {}
  | perform {origins : List Arguments} {memory after : Memory} {e e' : ε} {pages : Nat} {call : RecordCall ρ}
      {result : Result (RecordAnswer ρ)} (h : Run records environment origins memory)
      (hrun : environment.host.command pages (records.perform call) (memory, e) = some (result, (after, e'))) :
      Run records environment (records.keyArguments environment call e ++ origins) after
  | deleteAll {origins : List Arguments} {memory after : Memory} {e e' : ε} {pages : Nat} {filters : Arguments}
      {result : Result Nat} (h : Run records environment origins memory)
      (hrun : environment.host.command pages (records.deleteAll filters) (memory, e) = some (result, (after, e'))) :
      Run records environment origins after
  | read {origins : List Arguments} {memory after : Memory} (h : Run records environment origins memory)
      (htables : after.tables = memory.tables) : Run records environment origins after

section Run

variable {environment : Environment ε} {pages : Nat} {e e' : ε} (hdistinct : records.model.schema.Distinct)
  (hnames : records.model.layout.WellNamed) (htemplated : Templated records.model keys)
  (htells : keys.TellsApart origins) (h : records.Made keys origins memory)

include hdistinct hnames htemplated htells h

theorem command_made {α : Type} {command : Command α} {result : Result α}
    (hcommand : command.Asks (records.Makes origins))
    (hrun : environment.host.command pages command (memory, e) = some (result, (after, e'))) :
    records.Made keys origins after :=
  environment.command_asks (fun _ _ h => h.congr rfl)
    (fun _ _ hcall h => hcall.reply hdistinct hnames htemplated htells h) hcommand h hrun

theorem create_made {fields : Arguments} {result : Result ρ}
    (hargs : records.createArguments environment fields e ∈ origins)
    (hrun : environment.host.command pages (records.create fields) (memory, e) = some (result, (after, e'))) :
    records.Made keys origins after := by
  rw [create_eq, Host.command_bind_ok _ _ (command_identified environment pages e fields)] at hrun
  refine command_made hdistinct hnames htemplated htells h (createShaped_asks fun hencode time => ?_) hrun
  exact .stored hargs hencode (Or.inl rfl) _

theorem save_made {record : ρ} {result : Result ρ}
    (hargs : records.keyArguments environment (.save record) e ⊆ origins)
    (hrun : environment.host.command pages (records.save record) (memory, e) = some (result, (after, e'))) :
    records.Made keys origins after := by
  cases hid : records.form.id? record with
  | some id =>
    refine command_made hdistinct hnames htemplated htells h (save_asks_of hid fun hfields hencode time => ?_) hrun
    refine .stored (hargs ?_) hencode (Or.inr rfl) _
    simp [keyArguments, hfields, hid]
  | none =>
    simp only [save, hid, createRecord] at hrun
    cases hfields : records.fieldsOf record with
    | error failure =>
      rw [hfields, Host.command_error_bind] at hrun
      cases hrun
      exact h
    | ok fields =>
      rw [hfields, Host.command_ok_bind] at hrun
      refine create_made hdistinct hnames htemplated htells h (hargs ?_) hrun
      simp [keyArguments, hfields, hid]

theorem perform_made {call : RecordCall ρ} {result : Result (RecordAnswer ρ)}
    (hargs : records.keyArguments environment call e ⊆ origins)
    (hrun : environment.host.command pages (records.perform call) (memory, e) = some (result, (after, e'))) :
    records.Made keys origins after := by
  have hplain : records.PlainCalls (records.Makes origins) := plainCalls_makes
  cases call with
  | create fields =>
    obtain ⟨own, hrun, -⟩ := Host.command_map_inv hrun
    exact create_made hdistinct hnames htemplated htells h (hargs List.mem_cons_self) hrun
  | save record =>
    obtain ⟨own, hrun, -⟩ := Host.command_map_inv hrun
    exact save_made hdistinct hnames htemplated htells h hargs hrun
  | update args =>
    have hupdate : (records.update args).Asks (records.Makes origins) :=
      update_asks_of fun hkey hwritten time => .changed (hargs List.mem_cons_self) hkey hwritten time
    exact command_made hdistinct hnames htemplated htells h (hupdate.map _) hrun
  | get args => exact command_made hdistinct hnames htemplated htells h ((get_asks hplain args).map _) hrun
  | delete args => exact command_made hdistinct hnames htemplated htells h ((delete_asks hplain args).map _) hrun
  | remove record => exact command_made hdistinct hnames htemplated htells h ((remove_asks hplain record).map _) hrun

omit htells h in
/-- In a run whose keys can be told apart all items of records are made of the arguments in it. -/
theorem Run.made (h : records.Run environment origins memory) (htells : keys.TellsApart origins) :
    records.Made keys origins memory := by
  induction h with
  | empty => exact Made.empty
  | perform _ hrun ih =>
    have hbefore := ih (htells.mono (List.subset_append_right _ _))
    exact perform_made hdistinct hnames htemplated htells (hbefore.mono (List.subset_append_right _ _))
      (List.subset_append_left _ _) hrun
  | deleteAll _ hrun ih =>
    exact command_made hdistinct hnames htemplated htells (ih htells) (deleteAll_asks plainCalls_makes _) hrun
  | read _ htables ih => exact (ih htells).congr htables

end Run

end Records

end KeyedRecords
