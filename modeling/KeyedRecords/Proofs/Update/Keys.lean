import KeyedRecords.Proofs.Layout
import KeyedRecords.Proofs.Update.Nested
import KeyedRecords.Proofs.Update.Overlay
import KeyedRecords.Table

/-! Updates and the key attributes of an item. These are texts, and a path that runs through a text fails, so
only an assignment to the very name of a key attribute could write over it. Which updates have none follows
from the names in the table layout. Main statements: `Update.apply_leaf`, `TableLayout.keyOf?_update`. -/

namespace KeyedRecords

/-- Attributes that an update of data sets: the time, and the data unless there is none. -/
def Table.updateItem (layout : TableLayout) (data : Json.Map) (time : String) : Item :=
  let stamped := [(updatedName, Attribute.string time)]
  if data.isEmpty then stamped
  else Assoc.insert stamped layout.dataName (.map (Attribute.ofJsonMap data))

/-! ## Values that are no maps -/

section Leaf

variable {item after : Item} {name : String} {value : Attribute}
  (hvalue : Assoc.find? item name = some value) (hleaf : value.asMap? = none)

include hvalue hleaf

theorem Assignment.apply_leaf {action : UpdateAction} {assignment : Assignment}
    (h : assignment.apply action item = .ok after) (hpath : assignment.path ≠ [name]) :
    Assoc.find? after name = some value := by
  by_cases hhead : assignment.path.head? = some name
  · exfalso
    unfold apply at h
    rcases hsplit : assignment.path with _ | ⟨first, _ | ⟨second, rest⟩⟩
    · rw [hsplit] at hhead
      cases hhead
    · rw [hsplit] at hhead hpath
      exact hpath (congrArg (· :: []) (Option.some.inj hhead))
    · rw [hsplit] at h hhead
      cases Option.some.inj hhead
      simp only [applyBelow, hvalue] at h
      split at h
      · rename_i inner heq
        cases heq
        cases hleaf
      · cases h
  · rw [Assignment.apply_others h hhead, hvalue]

/-- An update leaves a value that is no map as it is, unless it assigns to its very name. -/
theorem Update.apply_leaf {update : Update} (h : update.apply item = .ok after)
    (hpath : ∀ a ∈ update.assignments, a.path ≠ [name]) : Assoc.find? after name = some value := by
  unfold apply at h
  generalize update.assignments = assignments at h hpath
  induction assignments generalizing item with
  | nil =>
    cases h
    exact hvalue
  | cons first rest ih =>
    rw [List.foldlM_cons] at h
    obtain ⟨between, hfirst, hrest⟩ := bind_eq_ok.1 h
    have hbetween := Assignment.apply_leaf hvalue hleaf hfirst (hpath first List.mem_cons_self)
    exact ih hbetween hrest fun a ha => hpath a (List.mem_cons_of_mem _ ha)

end Leaf

/-! ## Assignments to a single name -/

theorem exists_front {name : String} (h : replaceMark.toList <:+ name.toList) :
    ∃ front, name = front ++ replaceMark := by
  obtain ⟨front, hfront⟩ := h
  refine ⟨String.ofList front, ?_⟩
  rw [← String.toList_inj, String.toList_append, String.toList_ofList, hfront]

theorem unmark_cases (name : String) :
    unmark name = (name, false) ∨ ∃ front, name = front ++ replaceMark ∧ unmark name = (front, true) := by
  by_cases hmark : replaceMark.toList <:+ name.toList
  · obtain ⟨front, hname⟩ := exists_front hmark
    exact Or.inr ⟨front, hname, by rw [hname, unmark_mark]⟩
  · exact Or.inl (unmark_of_not_suffix hmark)

/-- An assignment to a single name sets the entry of that name. Of a map it does so only if the entry is marked or
the map is empty. -/
theorem Update.mem_set_single {item : Item} {a : Assignment} {name : String}
    (h : a ∈ (Update.set item).assignments) (hpath : a.path = [name]) : ∃ entry ∈ item,
      (unmark entry.1).1 = name ∧
        ((unmark entry.1).2 = true ∨ ∀ entries, entry.2 = .map entries → entries = []) := by
  rw [Update.set, setEntries_eq_flatMap, List.mem_flatMap] at h
  obtain ⟨entry, hentry, h⟩ := h
  have hname : (unmark entry.1).1 = name := by
    obtain ⟨rest, hrest⟩ := path_of_mem_setAt entry.2 h
    rw [hpath] at hrest
    exact (List.cons.inj hrest).1
  refine ⟨entry, hentry, hname, ?_⟩
  cases hwhole : (unmark entry.1).2 with
  | true => exact Or.inl rfl
  | false =>
    refine Or.inr fun entries hmap => ?_
    by_cases hempty : entries.isEmpty = true
    · exact List.isEmpty_iff.1 hempty
    · rw [hwhole, hmap, setAt, if_neg (by simpa using hempty)] at h
      obtain ⟨below, hbelow⟩ := path_of_mem_setEntries entries h
      have hlength := hbelow.length_le
      rw [hpath] at hlength
      simp at hlength

/-- What is added goes to the leaves of the tree that is added. -/
theorem Update.mem_add_single {name : String} {entries : Item} {a : Assignment}
    (h : a ∈ (Update.add [(name, .map entries)]).assignments) (other : String) : a.path ≠ [other] := by
  have hmem : a ∈ addEntries [name] entries := by simpa [Update.add, addEntries, addAt] using h
  obtain ⟨below, hbelow⟩ := path_of_mem_addEntries entries hmem
  intro hpath
  have hlength := hbelow.length_le
  rw [hpath] at hlength
  simp at hlength

/-! ## Data under a marked name -/

/-- What an update sets begins with the names of its entries, without their marks. -/
theorem Update.head_of_mem_set {item : Item} {a : Assignment} (h : a ∈ (Update.set item).assignments) :
    ∃ entry ∈ item, a.path.head? = some (unmark entry.1).1 := by
  rw [Update.set, setEntries_eq_flatMap, List.mem_flatMap] at h
  obtain ⟨entry, hentry, h⟩ := h
  obtain ⟨rest, hrest⟩ := path_of_mem_setAt entry.2 h
  refine ⟨entry, hentry, ?_⟩
  rw [← hrest]
  rfl

/-- If the name of the data is itself marked, the update of a record goes to another attribute and leaves the data as
they are. -/
theorem dataOf?_marked {layout : TableLayout} (hnames : layout.WellNamed)
    (hmark : replaceMark.toList <:+ layout.dataName.toList) {written item after : Item} {time : String}
    (happly : (Update.set (Records.updateItem layout written time)).apply item = .ok after) :
    layout.dataOf? after = layout.dataOf? item := by
  have hentries : ∀ entry ∈ Records.updateItem layout written time,
      entry.1 = updatedName ∨ entry.1 = layout.dataName := by
    intro entry hentry
    simp only [Records.updateItem] at hentry
    split at hentry
    · cases List.mem_singleton.1 hentry
      exact Or.inl rfl
    · rcases Assoc.mem_insert hentry with rfl | hentry
      · exact Or.inr rfl
      · cases List.mem_singleton.1 hentry
        exact Or.inl rfl
  have hunmark : (unmark layout.dataName).1 ≠ layout.dataName := by
    obtain ⟨front, hname⟩ := exists_front hmark
    rw [hname, unmark_mark]
    intro he
    have hlength := congrArg (·.toList.length) he
    simp [replaceMark] at hlength
  have hothers : Assoc.find? after layout.dataName = Assoc.find? item layout.dataName := by
    refine Update.apply_others happly fun a ha hhead => ?_
    obtain ⟨entry, hentry, hname⟩ := Update.head_of_mem_set ha
    have hdata : (unmark entry.1).1 = layout.dataName := Option.some.inj (hname.symm.trans hhead)
    rcases hentries entry hentry with hentry | hentry
    · have hstamp : unmark updatedName = (updatedName, false) := by decide
      rw [hentry, hstamp] at hdata
      exact hnames.updated.2.2 hdata.symm
    · rw [hentry] at hdata
      exact hunmark hdata
  simp only [TableLayout.dataOf?, hothers]

/-! ## Key attributes -/

namespace TableLayout

/-- Whether no update of records or of data writes over a key attribute: neither is the time of the update, or the
data taken whole. -/
structure Fixed (layout : TableLayout) : Prop where
  updated : layout.partitionName ≠ updatedName ∧ layout.sortName ≠ updatedName
  marked : layout.dataName ≠ layout.partitionName ++ replaceMark ∧
    layout.dataName ≠ layout.sortName ++ replaceMark

theorem WellNamed.fixed {layout : TableLayout} (hnames : layout.WellNamed)
    (hmark : ¬ replaceMark.toList <:+ layout.dataName.toList) : layout.Fixed := by
  have hne : ∀ name, layout.dataName ≠ name ++ replaceMark := by
    intro name he
    refine hmark ⟨name.toList, ?_⟩
    rw [he, String.toList_append]
  exact ⟨⟨hnames.updated.1, hnames.updated.2.1⟩, hne _, hne _⟩

/-- Whether an update assigns nothing to the names of the key attributes. -/
def Spares (layout : TableLayout) (update : Update) : Prop :=
  ∀ a ∈ update.assignments, a.path ≠ [layout.partitionName] ∧ a.path ≠ [layout.sortName]

variable {layout : TableLayout}

/-- An update that spares the key attributes leaves an item under its key. -/
theorem keyOf?_update {update : Update} (hspares : layout.Spares update) {item after : Item} {key : Key}
    (hkey : layout.keyOf? item = some key) (happly : update.apply item = .ok after) :
    layout.keyOf? after = some key := by
  obtain ⟨hpartition, hsort⟩ := keyOf?_eq_some_iff.1 hkey
  exact keyOf?_eq_some_iff.2
    ⟨Update.apply_leaf hpartition rfl happly fun a ha => (hspares a ha).1,
      Update.apply_leaf hsort rfl happly fun a ha => (hspares a ha).2⟩

/-- Setting the time of the update and a map of data, if it is not empty, spares the key attributes. -/
theorem spares_set (hfixed : layout.Fixed) {item : Item}
    (hitem : ∀ entry ∈ item, entry.1 = updatedName ∨
      entry.1 = layout.dataName ∧ ∃ entries, entry.2 = .map entries ∧ entries ≠ []) :
    layout.Spares (Update.set item) := by
  have hsingle : ∀ a ∈ (Update.set item).assignments, ∀ name, a.path = [name] →
      name = updatedName ∨ layout.dataName = name ++ replaceMark := by
    intro a ha name hpath
    obtain ⟨entry, hentry, hname, hwhole⟩ := Update.mem_set_single ha hpath
    rcases hitem entry hentry with hupdated | ⟨hdata, entries, hmap, hne⟩
    · have hunmark : unmark updatedName = (updatedName, false) := by decide
      rw [hupdated, hunmark] at hname
      exact Or.inl hname.symm
    · have hmarked : (unmark entry.1).2 = true := hwhole.resolve_right fun h => hne (h entries hmap)
      rcases unmark_cases entry.1 with hplain | ⟨front, hfront, hunmark⟩
      · rw [hplain] at hmarked
        cases hmarked
      · rw [hunmark] at hname
        rw [← hdata, hfront, ← hname]
        exact Or.inr rfl
  intro a ha
  constructor
  · intro hpath
    exact (hsingle a ha _ hpath).elim hfixed.updated.1 hfixed.marked.1
  · intro hpath
    exact (hsingle a ha _ hpath).elim hfixed.updated.2 hfixed.marked.2

/-- The entries of an update that sets the time and a map. -/
theorem mem_insert_stamped {time : String} {entries : Item} (hne : entries ≠ []) :
    ∀ entry ∈ Assoc.insert [(updatedName, Attribute.string time)] layout.dataName (.map entries),
      entry.1 = updatedName ∨ entry.1 = layout.dataName ∧ ∃ entries, entry.2 = .map entries ∧ entries ≠ [] := by
  intro entry hentry
  rcases Assoc.mem_insert hentry with rfl | hentry
  · exact Or.inr ⟨rfl, entries, rfl, hne⟩
  · cases List.mem_singleton.1 hentry
    exact Or.inl rfl

theorem spares_records (hfixed : layout.Fixed) (written : Item) (time : String) :
    layout.Spares (Update.set (Records.updateItem layout written time)) := by
  refine spares_set hfixed ?_
  cases written with
  | nil =>
    intro entry hentry
    cases List.mem_singleton.1 hentry
    exact Or.inl rfl
  | cons first rest => exact mem_insert_stamped (Assoc.ofList_ne_nil (List.cons_ne_nil _ _))

theorem spares_data (hfixed : layout.Fixed) (data : Json.Map) (time : String) :
    layout.Spares (Update.set (Table.updateItem layout data time)) := by
  refine spares_set hfixed ?_
  cases data with
  | nil =>
    intro entry hentry
    cases List.mem_singleton.1 hentry
    exact Or.inl rfl
  | cons first rest => exact mem_insert_stamped (by simp [Attribute.ofJsonMap])

theorem spares_added (counters : Item) :
    layout.Spares (Update.add [(layout.dataName, .map counters)]) :=
  fun _ ha => ⟨Update.mem_add_single ha _, Update.mem_add_single ha _⟩

end TableLayout

end KeyedRecords
