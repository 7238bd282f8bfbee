import KeyedRecords.Proofs.Records.Operations

/-! Stores in which every item lies under the key that it carries. A put item is stored under its own key, and no
update of records or of data writes over a key attribute, so every store that clients come to is so. Main
statement: `TableLayout.tidy_of_reached`. -/

namespace KeyedRecords

namespace TableLayout

variable {layout : TableLayout} {made : Key → Prop} {memory : Memory}

/-- Whether tables are in order, and items of a table lie under the keys that they carry, each of a kind. -/
structure Tidy (layout : TableLayout) (made : Key → Prop) (memory : Memory) : Prop where
  sorted : memory.Sorted
  stored : ∀ key item, memory.item? layout key = some item → layout.keyOf? item = some key ∧ made key

/-- Whether a call leaves a table tidy. -/
def Keeps (layout : TableLayout) (made : Key → Prop) (call : Call) : Prop :=
  ∀ memory, layout.Tidy made memory → layout.Tidy made (memory.reply call).2

theorem Tidy.empty : layout.Tidy made {} where
  sorted := Memory.sorted_empty
  stored _ _ h := by cases h

theorem Tidy.keyed (h : layout.Tidy made memory) : layout.Keyed (memory.contents layout.table) :=
  fun key item hmem => (h.stored key item (Assoc.find?_of_mem (h.sorted _).nodup hmem)).1

theorem Tidy.congr (h : layout.Tidy made memory) {after : Memory} (htables : after.tables = memory.tables) :
    layout.Tidy made after where
  sorted := h.sorted.congr htables
  stored key item hitem := h.stored key item ((Memory.item?_congr htables _ key).symm.trans hitem)

theorem Tidy.store (h : layout.Tidy made memory) {key : Key} {item : Item}
    (hitem : layout.keyOf? item = some key ∧ made key) : layout.Tidy made (memory.store layout key item) :=
  ⟨h.sorted.store layout key item, Memory.holds_store h.stored hitem⟩

theorem Tidy.remove (h : layout.Tidy made memory) (key : Key) :
    layout.Tidy made (memory.remove layout key) :=
  ⟨h.sorted.remove layout key, Memory.holds_remove h.stored key⟩

/-! ## Calls -/

theorem keeps_getItem (key : Key) : layout.Keeps made (.getItem layout key) := fun _ h => h

theorem keeps_query (query : BoundQuery) : layout.Keeps made (.query query) := fun _ h => h

theorem keeps_deleteItem (key : Key) : layout.Keeps made (.deleteItem layout key) := by
  intro memory h
  refine Memory.of_replies (P := fun _ after => layout.Tidy made after) fun reply after hreplies => ?_
  cases hreplies with
  | missing => exact h
  | deleted => exact h.remove key

theorem keeps_putItem {item : Item} (hmade : ∀ key, layout.keyOf? item = some key → made key)
    (condition? : Option Precondition) : layout.Keeps made (.putItem layout item condition?) := by
  intro memory h
  refine Memory.of_replies (P := fun _ after => layout.Tidy made after) fun reply after hreplies => ?_
  cases hreplies with
  | notPut => exact h
  | put hkey _ => exact h.store ⟨hkey, hmade _ hkey⟩

/-- An update that spares the key attributes keeps a tidy table so, if it is not to make an item, or one with a
key of its own. -/
theorem keeps_updateItem {update : Update} (hspares : layout.Spares update) {key : Key}
    {condition? : Option Precondition}
    (hnew : condition? = some .present ∨ layout.partitionName ≠ layout.sortName ∧ made key) :
    layout.Keeps made (.updateItem layout key update condition?) := by
  intro memory h
  refine Memory.of_replies (P := fun _ after => layout.Tidy made after) fun reply after hreplies => ?_
  cases hreplies with
  | notUpdated => exact h
  | updated hcheck happly =>
    cases hitem : memory.item? layout key with
    | some item =>
      rw [hitem, Option.getD_some] at happly
      obtain ⟨hkey, hmade⟩ := h.stored key item hitem
      exact h.store ⟨keyOf?_update hspares hkey happly, hmade⟩
    | none =>
      rw [hitem, Option.getD_none] at happly
      rcases hnew with rfl | ⟨hnames, hmade⟩
      · rw [hitem] at hcheck
        cases hcheck
      · exact h.store ⟨keyOf?_update hspares (keyOf?_keyItem hnames key) happly, hmade⟩

/-! ## Commands -/

theorem keeps_records {ρ : Type} {records : Records ρ} (hfixed : records.model.layout.Fixed)
    (hmade : ∀ {fields key data}, records.encode fields = .ok (key, data) → ∀ time own,
      records.model.layout.keyOf? (records.model.layout.newItem key data time) = some own → made own) :
    records.Calls (records.model.layout.Keeps made) where
  getItem := keeps_getItem
  query query _ := keeps_query query
  deleteItem := keeps_deleteItem
  created hencode time := keeps_putItem (hmade hencode time) (some .absent)
  saved hencode time := by
    refine keeps_putItem (fun own hown => hmade hencode time own ?_) none
    rw [← hown]
    exact (keyOf?_congr (Assoc.find?_insert_of_ne _ _ hfixed.updated.1)
      (Assoc.find?_insert_of_ne _ _ hfixed.updated.2)).symm
  updated _ _ time := keeps_updateItem (spares_records hfixed _ time) (Or.inl rfl)

theorem keeps_table {table : Table} (hfixed : table.layout.Fixed)
    (hnames : table.layout.partitionName ≠ table.layout.sortName) :
    table.Calls (table.layout.Keeps fun _ => True) where
  getItem := keeps_getItem
  query query _ := keeps_query query
  deleteItem := keeps_deleteItem
  put _ _ _ := keeps_putItem (fun _ _ => trivial) none
  updated _ data time := keeps_updateItem (spares_data hfixed data time) (Or.inr ⟨hnames, trivial⟩)
  added _ _ := keeps_updateItem (spares_added _) (Or.inr ⟨hnames, trivial⟩)

/-- A store that tables and records of a layout have come to is tidy. -/
theorem tidy_of_reached (hfixed : layout.Fixed) (hnames : layout.partitionName ≠ layout.sortName)
    (h : memory.ReachedBy layout.Offers) : layout.Tidy (fun _ => True) memory := by
  refine h.invariant (P := layout.Keeps fun _ => True) Tidy.empty
    (fun call memory hcall hmemory => hcall _ (hmemory.congr rfl)) ?_
  rintro α command (⟨ρ, records, rfl, hoffers⟩ | ⟨table, rfl, hoffers⟩)
  · exact hoffers.asks (keeps_records hfixed fun _ _ _ _ => trivial)
  · exact hoffers.asks (keeps_table hfixed hnames)

end TableLayout

end KeyedRecords
