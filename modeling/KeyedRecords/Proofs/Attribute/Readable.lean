import KeyedRecords.Proofs.Attribute
import KeyedRecords.Proofs.Attribute.Path

/-! An attribute can be read as JSON if all of its number texts stand for numbers. Main statement:
`readable_iff_leaves`. -/

namespace KeyedRecords.Attribute

/-- Whether an attribute can be read as JSON. -/
def Readable (value : Attribute) : Prop := ∃ json, value.toJson = .ok json

theorem readable_ofJson (json : Json) : (ofJson json).Readable := ⟨json, toJson_ofJson json⟩

theorem toJsonMap_cons_eq_ok {name : String} {value : Attribute} {rest : Item} {entries : Json.Map} :
    toJsonMap ((name, value) :: rest) = .ok entries ↔
      ∃ head tail, value.toJson = .ok head ∧ toJsonMap rest = .ok tail ∧ entries = (name, head) :: tail := by
  rw [toJsonMap, bind_eq_ok]
  constructor
  · rintro ⟨head, hhead, hrest⟩
    obtain ⟨tail, htail, hentries⟩ := bind_eq_ok.1 hrest
    cases hentries
    exact ⟨head, tail, hhead, htail, rfl⟩
  · rintro ⟨head, tail, hhead, htail, rfl⟩
    exact ⟨head, hhead, bind_eq_ok.2 ⟨tail, htail, rfl⟩⟩

theorem isEmpty_of_toJsonMap {entries : Item} {read : Json.Map} (h : toJsonMap entries = .ok read) :
    read.isEmpty = entries.isEmpty := by
  cases entries with
  | nil =>
    cases h
    rfl
  | cons entry rest =>
    obtain ⟨head, tail, -, -, rfl⟩ := toJsonMap_cons_eq_ok.1 h
    rfl

/-- What is read of an item has the same names, each with what is read of its attribute. -/
theorem find?_toJsonMap {entries : Item} {read : Json.Map} (h : toJsonMap entries = .ok read)
    (name : String) :
    (Assoc.find? entries name = none ∧ Assoc.find? read name = none) ∨
      ∃ value json, Assoc.find? entries name = some value ∧ value.toJson = .ok json ∧
        Assoc.find? read name = some json := by
  induction entries generalizing read with
  | nil =>
    cases h
    exact Or.inl ⟨rfl, rfl⟩
  | cons entry rest ih =>
    obtain ⟨other, value⟩ := entry
    obtain ⟨head, tail, hhead, htail, rfl⟩ := toJsonMap_cons_eq_ok.1 h
    by_cases he : other = name
    · refine Or.inr ⟨value, head, ?_, hhead, ?_⟩ <;> exact if_pos he
    · rw [Assoc.find?, Assoc.find?, if_neg he, if_neg he]
      exact ih htail

theorem toJson_map_eq_ok {entries : Item} {json : Json} :
    (map entries).toJson = .ok json ↔ ∃ read, toJsonMap entries = .ok read ∧ json = .map read := by
  rw [toJson, bind_eq_ok]
  constructor
  · rintro ⟨read, hread, hjson⟩
    cases hjson
    exact ⟨read, hread, rfl⟩
  · rintro ⟨read, hread, rfl⟩
    exact ⟨read, hread, rfl⟩

theorem readable_map_iff_toJsonMap {entries : Item} :
    (map entries).Readable ↔ ∃ read, toJsonMap entries = .ok read := by
  constructor
  · rintro ⟨json, hjson⟩
    obtain ⟨read, hread, -⟩ := toJson_map_eq_ok.1 hjson
    exact ⟨read, hread⟩
  · rintro ⟨read, hread⟩
    exact ⟨.map read, toJson_map_eq_ok.2 ⟨read, hread, rfl⟩⟩

theorem readable_map_iff {entries : Item} :
    (map entries).Readable ↔ ∀ entry ∈ entries, entry.2.Readable := by
  rw [readable_map_iff_toJsonMap]
  induction entries with
  | nil => exact ⟨fun _ _ hmem => absurd hmem List.not_mem_nil, fun _ => ⟨[], rfl⟩⟩
  | cons entry rest ih =>
    obtain ⟨name, value⟩ := entry
    constructor
    · rintro ⟨read, hread⟩
      obtain ⟨head, tail, hhead, htail, -⟩ := toJsonMap_cons_eq_ok.1 hread
      intro other hother
      rcases List.mem_cons.1 hother with rfl | hother
      · exact ⟨head, hhead⟩
      · exact ih.1 ⟨tail, htail⟩ other hother
    · intro hall
      obtain ⟨head, hhead⟩ := hall _ List.mem_cons_self
      obtain ⟨tail, htail⟩ := ih.2 fun other hother => hall other (List.mem_cons_of_mem _ hother)
      exact ⟨(name, head) :: tail, toJsonMap_cons_eq_ok.2 ⟨head, tail, hhead, htail, rfl⟩⟩

/-- An item with one more attribute can be read if the attribute and all others can be. -/
theorem readable_insert_iff {entries : Item} (hsorted : Assoc.Sorted entries) {name : String} {value : Attribute} :
    (map (Assoc.insert entries name value)).Readable ↔
      value.Readable ∧ ∀ entry ∈ entries, entry.1 ≠ name → entry.2.Readable := by
  rw [readable_map_iff]
  constructor
  · intro hall
    refine ⟨hall (name, value) (Assoc.mem_of_find? (Assoc.find?_insert_self ..)), fun entry hentry hne => ?_⟩
    refine hall entry (Assoc.mem_of_find? ?_)
    rw [Assoc.find?_insert_of_ne _ _ hne]
    exact Assoc.find?_of_mem hsorted.nodup hentry
  · rintro ⟨hvalue, hothers⟩ entry hentry
    have hfound := Assoc.find?_of_mem (Assoc.sorted_insert hsorted name value).nodup hentry
    rw [Assoc.find?_insert] at hfound
    split at hfound
    · cases hfound
      exact hvalue
    · rename_i hne
      exact hothers entry (Assoc.mem_of_find? hfound) hne

/-! Reading fails at a number text that stands for no number, and in no other way. -/

mutual

theorem toJson_error : (value : Attribute) → ∀ {e}, value.toJson = .error e →
    ∃ text, e = .invalidValue (.notANumber text)
  | .number text, e, h => by
    rw [toJson, readNumber] at h
    split at h
    · cases h
    · cases h
      exact ⟨text, rfl⟩
  | .list elements, e, h => by
    rw [toJson] at h
    cases helements : toJsonList elements with
    | ok read =>
      rw [helements] at h
      cases h
    | error failure =>
      rw [helements] at h
      cases h
      exact toJsonList_error elements helements
  | .map entries, e, h => by
    rw [toJson] at h
    cases hentries : toJsonMap entries with
    | ok read =>
      rw [hentries] at h
      cases h
    | error failure =>
      rw [hentries] at h
      cases h
      exact toJsonMap_error entries hentries

theorem toJsonList_error : (elements : List Attribute) → ∀ {e}, toJsonList elements = .error e →
    ∃ text, e = .invalidValue (.notANumber text)
  | value :: rest, e, h => by
    rw [toJsonList] at h
    cases hvalue : value.toJson with
    | error failure =>
      rw [hvalue] at h
      cases h
      exact toJson_error value hvalue
    | ok read =>
      cases hrest : toJsonList rest with
      | error failure =>
        rw [hvalue, hrest] at h
        cases h
        exact toJsonList_error rest hrest
      | ok others =>
        rw [hvalue, hrest] at h
        cases h

theorem toJsonMap_error : (entries : Item) → ∀ {e}, toJsonMap entries = .error e →
    ∃ text, e = .invalidValue (.notANumber text)
  | (_, value) :: rest, e, h => by
    rw [toJsonMap] at h
    cases hvalue : value.toJson with
    | error failure =>
      rw [hvalue] at h
      cases h
      exact toJson_error value hvalue
    | ok read =>
      cases hrest : toJsonMap rest with
      | error failure =>
        rw [hvalue, hrest] at h
        cases h
        exact toJsonMap_error rest hrest
      | ok others =>
        rw [hvalue, hrest] at h
        cases h

end

/-- A tree can be read if and only if each value in it that is no map can be. -/
theorem readable_iff_leaves {value : Attribute} (hordered : value.Ordered) :
    value.Readable ↔ ∀ path leaf, value.nodeAt path = some (.leaf leaf) → leaf.Readable := by
  induction value using tree_induction with
  | leaf value hleaf =>
    constructor
    · intro hread path leaf hnode
      cases path with
      | nil =>
        rw [nodeAt_nil] at hnode
        obtain ⟨rfl, -⟩ := node_eq_leaf_iff.1 (Option.some.inj hnode)
        exact hread
      | cons name rest =>
        rw [nodeAt_cons_of_not_map hleaf] at hnode
        cases hnode
    · intro hall
      refine hall [] value ?_
      rw [nodeAt_nil, node_eq_leaf_iff.2 ⟨rfl, hleaf⟩]
  | map entries ih =>
    have hfound : ∀ entry ∈ entries, Assoc.find? entries entry.1 = some entry.2 :=
      fun entry hentry => Assoc.find?_of_mem hordered.sorted.nodup hentry
    rw [readable_map_iff]
    constructor
    · intro hall path leaf hnode
      cases path with
      | nil => cases (nodeAt_nil (map entries)).symm.trans hnode
      | cons name rest =>
        rw [nodeAt_cons] at hnode
        obtain ⟨value, hvalue, hnode⟩ := Option.bind_eq_some_iff.1 hnode
        have hread := hall (name, value) (Assoc.mem_of_find? hvalue)
        exact (ih name value hvalue (hordered.inner hvalue)).1 hread rest leaf hnode
    · intro hall entry hentry
      refine (ih entry.1 entry.2 (hfound entry hentry) (hordered.inner (hfound entry hentry))).2 ?_
      intro rest leaf hnode
      refine hall (entry.1 :: rest) leaf ?_
      rw [nodeAt_cons, hfound entry hentry]
      exact hnode

end KeyedRecords.Attribute
