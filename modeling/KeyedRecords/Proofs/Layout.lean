import KeyedRecords.Layout

/-! The key and the data that an item carries, and that a new item carries what it was made of. Main
statements: `keyOf?_newItem`, `dataOf?_newItem`. -/

namespace KeyedRecords.TableLayout

structure WellNamed (layout : TableLayout) : Prop where
  keys : layout.partitionName ≠ layout.sortName
  data_partition : layout.dataName ≠ layout.partitionName
  data_sort : layout.dataName ≠ layout.sortName
  created : layout.partitionName ≠ createdName ∧ layout.sortName ≠ createdName ∧
    layout.dataName ≠ createdName
  updated : layout.partitionName ≠ updatedName ∧ layout.sortName ≠ updatedName ∧
    layout.dataName ≠ updatedName

/-- Whether the key attributes of a new item have names of their own. -/
structure KeysApart (layout : TableLayout) : Prop where
  keys : layout.partitionName ≠ layout.sortName
  data_partition : layout.dataName ≠ layout.partitionName
  data_sort : layout.dataName ≠ layout.sortName
  created : layout.partitionName ≠ createdName ∧ layout.sortName ≠ createdName

theorem WellNamed.keysApart {layout : TableLayout} (h : layout.WellNamed) : layout.KeysApart :=
  ⟨h.keys, h.data_partition, h.data_sort, h.created.1, h.created.2.1⟩

/-! ## Reading -/

theorem keyOf?_eq_some_iff {layout : TableLayout} {item : Item} {key : Key} :
    layout.keyOf? item = some key ↔
      Assoc.find? item layout.partitionName = some (.string key.partition) ∧
        Assoc.find? item layout.sortName = some (.string key.sort) := by
  have hstring : ∀ (a : Attribute) (text : String), a.asString? = some text ↔ a = .string text := by
    intro a text
    cases a <;> simp [Attribute.asString?]
  obtain ⟨partition, sort⟩ := key
  cases hpartition : Assoc.find? item layout.partitionName with
  | none => simp [keyOf?, hpartition]
  | some p =>
    cases hsort : Assoc.find? item layout.sortName with
    | none => simp [keyOf?, hpartition, hsort]
    | some s => simp [keyOf?, hpartition, hsort, Option.bind_eq_some_iff, hstring]

theorem dataOf?_eq_some_iff {layout : TableLayout} {item data : Item} :
    layout.dataOf? item = some data ↔ Assoc.find? item layout.dataName = some (.map data) := by
  have hmap : ∀ a : Attribute, a.asMap? = some data ↔ a = .map data := by
    intro a
    cases a <;> simp [Attribute.asMap?]
  cases hdata : Assoc.find? item layout.dataName with
  | none => simp [dataOf?, hdata]
  | some a => simp [dataOf?, hdata, hmap]

theorem find?_keyItem (layout : TableLayout) (key : Key) (name : String) :
    Assoc.find? (layout.keyItem key) name =
      if name = layout.sortName then some (.string key.sort)
      else if name = layout.partitionName then some (.string key.partition) else none := by
  show Assoc.find? (Assoc.insert (Assoc.insert [] layout.partitionName _) layout.sortName _) name = _
  rw [Assoc.find?_insert, Assoc.find?_insert, Assoc.find?_nil]

theorem keyOf?_keyItem {layout : TableLayout} (hnames : layout.partitionName ≠ layout.sortName)
    (key : Key) : layout.keyOf? (layout.keyItem key) = some key := by
  rw [keyOf?_eq_some_iff, find?_keyItem, find?_keyItem, if_neg hnames, if_pos rfl, if_pos rfl]
  exact ⟨rfl, rfl⟩

/-- Whether every item of a table is stored under the key that it carries. -/
def Keyed (layout : TableLayout) (contents : List (Key × Item)) : Prop :=
  ∀ key item, (key, item) ∈ contents → layout.keyOf? item = some key

/-! ## Writing -/

theorem keyOf?_congr {layout : TableLayout} {item other : Item}
    (hpartition : Assoc.find? other layout.partitionName = Assoc.find? item layout.partitionName)
    (hsort : Assoc.find? other layout.sortName = Assoc.find? item layout.sortName) :
    layout.keyOf? other = layout.keyOf? item := by
  simp only [keyOf?, hpartition, hsort]

/-- A text of a new item, if it is not the time, is one of the key. Data in the place of a key attribute are no text. -/
theorem find?_newItem_text {layout : TableLayout} {key : Key} {data : Item} {time name text : String}
    (hname : name ≠ createdName) (h : Assoc.find? (layout.newItem key data time) name = some (.string text)) :
    Assoc.find? (layout.keyItem key) name = some (.string text) := by
  rw [newItem, Assoc.find?_insert_of_ne _ _ hname, Assoc.find?_insert] at h
  split at h
  · cases h
  · exact h

theorem keyOf?_newItem_apart {layout : TableLayout} (hapart : layout.KeysApart) (key : Key) (data : Item)
    (time : String) : layout.keyOf? (layout.newItem key data time) = some key := by
  rw [← keyOf?_keyItem hapart.keys key]
  refine keyOf?_congr ?_ ?_
  · rw [newItem, Assoc.find?_insert_of_ne _ _ hapart.created.1,
      Assoc.find?_insert_of_ne _ _ (Ne.symm hapart.data_partition)]
  · rw [newItem, Assoc.find?_insert_of_ne _ _ hapart.created.2,
      Assoc.find?_insert_of_ne _ _ (Ne.symm hapart.data_sort)]

section NewItem

variable {layout : TableLayout} (hnames : layout.WellNamed) (key : Key) (data : Item) (time : String)

include hnames

theorem keyOf?_newItem : layout.keyOf? (layout.newItem key data time) = some key :=
  keyOf?_newItem_apart hnames.keysApart key data time

theorem dataOf?_newItem : layout.dataOf? (layout.newItem key data time) = some data := by
  rw [dataOf?_eq_some_iff, newItem, Assoc.find?_insert_of_ne _ _ hnames.created.2.2,
    Assoc.find?_insert_self]

/-- The time of an update leaves key and data as they are. -/
theorem keyOf?_stamped (item : Item) :
    layout.keyOf? (Assoc.insert item updatedName (.string time)) = layout.keyOf? item :=
  keyOf?_congr (Assoc.find?_insert_of_ne _ _ hnames.updated.1)
    (Assoc.find?_insert_of_ne _ _ hnames.updated.2.1)

theorem dataOf?_stamped (item : Item) :
    layout.dataOf? (Assoc.insert item updatedName (.string time)) = layout.dataOf? item := by
  rw [dataOf?, dataOf?, Assoc.find?_insert_of_ne _ _ hnames.updated.2.2]

end NewItem

end KeyedRecords.TableLayout
