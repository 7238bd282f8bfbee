import KeyedRecords.Proofs.Records.Requests
import KeyedRecords.Proofs.Records.Simulation
import KeyedRecords.Proofs.Update.Nested

/-! Partitions that hold only records of a model, whatever the rest of the table holds. Every call that clients of the
model make keeps such a partition so, whatever they are answered and however they take turns. Main statements:
`keeps_calledBy`, `Owns.interleave`. -/

namespace KeyedRecords

/-- The update of a record touches neither the key nor anything else beside the data and the time. -/
theorem updateItem_others {layout : TableLayout} (hnames : layout.WellNamed)
    (hmark : ¬ replaceMark.toList <:+ layout.dataName.toList) {written : Item}
    (hnodup : (Assoc.keys written).Nodup) {time : String} {item after : Item}
    (happly : (Update.set (Records.updateItem layout written time)).apply item = .ok after) {name : String}
    (hdata : name ≠ layout.dataName) (hupdated : name ≠ updatedName) :
    Assoc.find? after name = Assoc.find? item name := by
  have hbelow : ∀ a ∈ setEntries [layout.dataName] (Assoc.ofList (marked written)),
      a.path.head? ≠ some name := by
    intro a ha
    obtain ⟨next, rest, hpath⟩ := path_of_mem_setEntries _ ha
    rw [← hpath]
    exact fun he => hdata (Option.some.inj he).symm
  have hstamp : ∀ a, a = (⟨[updatedName], .string time⟩ : Assignment) → a.path.head? ≠ some name := by
    rintro a rfl he
    exact hupdated (Option.some.inj he).symm
  refine Update.apply_others happly fun a ha => ?_
  rcases set_updateItem hnames hmark hnodup time with hset | hset
  · rw [hset, List.mem_append, List.mem_singleton] at ha
    exact ha.elim (hbelow a) (hstamp a)
  · rw [hset, List.mem_cons] at ha
    exact ha.elim (hstamp a) (hbelow a)

namespace Records

variable {ρ : Type} (records : Records ρ)

/-- Whether what is stored in a partition is records of a model, each under its own key. -/
structure Owns (partition : String) (memory : Memory) : Prop where
  sorted : memory.Sorted
  holds : ∀ key item, memory.item? records.model.layout key = some item →
    key.partition = partition ∨
      BoundQuery.textOf? item records.model.layout.partitionName = some partition →
    ∃ value, records.Holds key item value

/-- Whether a call leaves nothing but records in a partition that held nothing else. -/
def Keeps (partition : String) (call : Call) : Prop :=
  ∀ memory, records.Owns partition memory → records.Owns partition (memory.reply call).2

variable {records} {partition : String} {memory : Memory}

theorem Owns.congr {after : Memory} (h : records.Owns partition memory)
    (htables : after.tables = memory.tables) : records.Owns partition after where
  sorted := h.sorted.congr htables
  holds key item hitem := h.holds key item ((Memory.item?_congr htables _ key).symm.trans hitem)

theorem Owns.store (h : records.Owns partition memory) {key : Key} {item : Item}
    (hitem : key.partition = partition ∨
      BoundQuery.textOf? item records.model.layout.partitionName = some partition →
        ∃ value, records.Holds key item value) :
    records.Owns partition (memory.store records.model.layout key item) :=
  ⟨h.sorted.store _ key item, Memory.holds_store h.holds hitem⟩

theorem Owns.remove (h : records.Owns partition memory) (key : Key) :
    records.Owns partition (memory.remove records.model.layout key) :=
  ⟨h.sorted.remove _ key, Memory.holds_remove h.holds key⟩

/-- A store that only records have come to owns every partition. -/
theorem Represents.owns {map : RecordMap} (h : records.Represents map memory) (hsorted : memory.Sorted)
    (partition : String) : records.Owns partition memory := by
  refine ⟨hsorted, fun key item hitem _ => ?_⟩
  rcases h.lookup key with ⟨hnone, -⟩ | ⟨stored, value, hstored, -, hholds⟩
  · cases hnone.symm.trans hitem
  · cases hstored.symm.trans hitem
    exact ⟨value, hholds⟩

/-! ## Calls -/

theorem keeps_getItem (key : Key) : records.Keeps partition (.getItem records.model.layout key) :=
  fun _ h => h

theorem keeps_query (query : BoundQuery) : records.Keeps partition (.query query) := fun _ h => h

theorem keeps_putItem {key : Key} {item : Item} {value : Json.Map} (hholds : records.Holds key item value)
    (condition? : Option Precondition) :
    records.Keeps partition (.putItem records.model.layout item condition?) := by
  intro memory h
  refine Memory.of_replies (P := fun _ after => records.Owns partition after) fun reply after hreplies => ?_
  cases hreplies with
  | notPut => exact h
  | put hkey _ =>
    cases hholds.key.symm.trans hkey
    exact h.store fun _ => ⟨value, hholds⟩

theorem keeps_deleteItem (key : Key) : records.Keeps partition (.deleteItem records.model.layout key) := by
  intro memory h
  refine Memory.of_replies (P := fun _ after => records.Owns partition after) fun reply after hreplies => ?_
  cases hreplies with
  | missing => exact h
  | deleted => exact h.remove key

section Updates

variable (hdistinct : records.model.schema.Distinct) (hnames : records.model.layout.WellNamed)
  (hmark : ¬ replaceMark.toList <:+ records.model.layout.dataName.toList)

include hdistinct hnames hmark

/-- An update makes records of records, and moves nothing else into the partition. -/
theorem keeps_updateItem {args : Arguments} {written : Item}
    (hwritten : records.model.schema.encodePartial records.model.name (changes args) = .ok written)
    (key : Key) (time : String) :
    records.Keeps partition (.updateItem records.model.layout key
      (Update.set (updateItem records.model.layout written time)) (some .present)) := by
  have hnodup := (Schema.encodePartial_sorted hwritten).nodup
  intro memory h
  refine Memory.of_replies (P := fun _ after => records.Owns partition after) fun reply after hreplies => ?_
  cases hreplies with
  | notUpdated => exact h
  | updated hcheck happly =>
    obtain ⟨item, hitem⟩ := Memory.check_present hcheck
    rw [hitem, Option.getD_some] at happly
    refine h.store fun hin => ?_
    have hpartition := updateItem_others hnames hmark hnodup happly
      (Ne.symm hnames.data_partition) hnames.updated.1
    rw [BoundQuery.textOf?, hpartition] at hin
    obtain ⟨value, hholds⟩ := h.holds key item hitem hin
    obtain ⟨made, hmade, hafter⟩ := hholds.updated hdistinct hnames hmark hwritten time
    cases hmade.symm.trans happly
    exact ⟨_, hafter⟩

end Updates

/-! ## Commands -/

section Commands

variable (hdistinct : records.model.schema.Distinct) (hnames : records.model.layout.WellNamed)
  (hmark : ¬ replaceMark.toList <:+ records.model.layout.dataName.toList)

include hdistinct hnames hmark

theorem keeps_calls : records.Calls (records.Keeps partition) where
  getItem := keeps_getItem
  query query _ := keeps_query query
  deleteItem := keeps_deleteItem
  created hencode time := by
    obtain ⟨value, -, hholds⟩ := keyed_of_encode hdistinct hnames hencode time
    exact keeps_putItem hholds (some .absent)
  saved hencode time := by
    obtain ⟨value, -, hholds⟩ := keyed_of_encode hdistinct hnames hencode time
    exact keeps_putItem (hholds.stamped hnames time) none
  updated hwritten key time := keeps_updateItem hdistinct hnames hmark hwritten key time

end Commands

/-! ## Clients -/

/-- What a partition holds is up to the model, not to the type of its records or how they are shaped. -/
theorem Owns.of_model {σ : Type} {other : Records σ} (hmodel : other.model = records.model)
    (h : other.Owns partition memory) : records.Owns partition memory where
  sorted := h.sorted
  holds key item hitem hin := by
    rw [← hmodel] at hitem hin
    obtain ⟨value, hholds⟩ := h.holds key item hitem hin
    exact ⟨value, hmodel ▸ hholds.key, hmodel ▸ hholds.data⟩

theorem keeps_of_model {σ : Type} {other : Records σ} (hmodel : other.model = records.model) :
    other.Keeps partition = records.Keeps partition := by
  funext call
  refine propext ⟨fun h memory howns => ?_, fun h memory howns => ?_⟩
  · exact (h memory (howns.of_model hmodel.symm)).of_model hmodel
  · exact (h memory (howns.of_model hmodel)).of_model hmodel.symm

end Records

/-- The programs of clients that make calls on the records of a model one after another, each chosen by what the ones
before it brought. Records may be of another type, and shaped in another way, for each call. -/
inductive Model.CalledBy (model : Model) {α : Type} : Program α → Prop
  | done (result : α) : CalledBy model (.done result)
  | single {ρ : Type} {records : Records ρ} (hmodel : records.model = model) (call : RecordCall ρ)
      {rest : Result (RecordAnswer ρ) → Program α} (hrest : ∀ result, CalledBy model (rest result)) :
      CalledBy model ((records.perform call).run.bind rest)
  | deleteAll {ρ : Type} {records : Records ρ} (hmodel : records.model = model) (filters : Arguments)
      {rest : Result Nat → Program α} (hrest : ∀ result, CalledBy model (rest result)) :
      CalledBy model ((records.deleteAll filters).run.bind rest)

namespace Records

variable {ρ : Type} {records : Records ρ} {partition : String} {memory : Memory}

/-- Whatever such a client is answered, its calls keep a partition as one of the records of the model. -/
theorem keeps_calledBy (hdistinct : records.model.schema.Distinct) (hnames : records.model.layout.WellNamed)
    (hmark : ¬ replaceMark.toList <:+ records.model.layout.dataName.toList) {α : Type} {client : Program α}
    (h : records.model.CalledBy client) : client.Asks (records.Keeps partition) := by
  have hcalls : ∀ {σ : Type} {other : Records σ}, other.model = records.model →
      other.Calls (records.Keeps partition) := fun hmodel =>
    keeps_of_model hmodel ▸ keeps_calls (hmodel ▸ hdistinct) (hmodel ▸ hnames) (hmodel ▸ hmark)
  induction h with
  | done result => trivial
  | single hmodel call _ ih =>
    have hperform : Command.Asks _ (Records.perform _ call) :=
      perform_asks (hcalls hmodel).toGuardedCalls fun record _ => save_asks (hcalls hmodel) record
    exact Program.Asks.bind hperform ih
  | deleteAll hmodel filters _ ih => exact Program.Asks.bind (deleteAll_asks (hcalls hmodel).toPlainCalls filters) ih

/-- Turns of programs that make such calls only keep the partition as it is. -/
theorem Owns.interleave {ε α : Type} (environment : Environment ε) (turns : List Nat)
    {programs : List (Program α)} (hprograms : ∀ p ∈ programs, p.Asks (records.Keeps partition))
    (h : records.Owns partition memory) (e : ε) :
    (∀ p ∈ (environment.host.interleave turns programs (memory, e)).1, p.Asks (records.Keeps partition)) ∧
      records.Owns partition (environment.host.interleave turns programs (memory, e)).2.1 := by
  refine environment.host.interleave_asks (I := fun state => records.Owns partition state.1) ?_ ?_ ?_ turns
    hprograms h
  · exact fun call state hcall hstate => hcall _ (hstate.congr rfl)
  · exact fun state hstate => hstate
  · exact fun state hstate => hstate

end Records

end KeyedRecords
