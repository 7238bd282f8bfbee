import KeyedRecords.Proofs.Counters.Accumulate
import KeyedRecords.Proofs.Update.Keys

/-! Updates and number texts. An update with values that can be read makes of an item that can be read another one: what
it sets is such a value, and what it adds up is written as the text of a number. Main statement:
`Update.apply_readable`. -/

namespace KeyedRecords

/-! ## Applying assignments -/

theorem Attribute.readable_number (value : Number) : (Attribute.number value.text).Readable :=
  Attribute.readable_ofJson (.number value)

namespace Assignment

variable {action : UpdateAction} {assignment : Assignment}

/-- A value that an assignment leaves is its own or the text of a sum. -/
theorem newValue_readable (hvalue : assignment.value.Readable) {current? : Option Attribute} {new : Attribute}
    (h : assignment.newValue action current? = .ok new) : new.Readable := by
  unfold newValue at h
  split at h
  · cases h
    exact hvalue
  · rename_i hadded
    cases h
    exact hadded ▸ hvalue
  · rename_i current added _ _
    unfold addTexts at h
    split at h
    · cases h
    · cases h
    · split at h
      · rename_i sum _
        cases h
        exact Attribute.readable_number sum
      · cases h
  · cases h

theorem applyBelow_readable (hvalue : assignment.value.Readable) {path : List String} {item after : Item}
    (hitem : (Attribute.map item).Readable) (h : assignment.applyBelow action path item = .ok after) :
    (Attribute.map after).Readable := by
  induction path generalizing item after with
  | nil => cases h
  | cons name rest ih =>
    cases rest with
    | nil =>
      obtain ⟨new, hnew, h⟩ := bind_eq_ok.1 h
      cases h
      exact hitem.insert name (newValue_readable hvalue hnew)
    | cons next rest =>
      simp only [applyBelow] at h
      split at h
      · rename_i inner hinner
        obtain ⟨changed, hchanged, h⟩ := bind_eq_ok.1 h
        cases h
        have hinner := Attribute.readable_map_iff.1 hitem _ (Assoc.mem_of_find? hinner)
        exact hitem.insert name (ih hinner hchanged)
      · cases h

end Assignment

def Update.Readable (update : Update) : Prop := ∀ a ∈ update.assignments, a.value.Readable

theorem Update.apply_readable {update : Update} (hupdate : update.Readable) {item after : Item}
    (hitem : (Attribute.map item).Readable) (h : update.apply item = .ok after) :
    (Attribute.map after).Readable := by
  unfold Update.Readable at hupdate
  unfold apply at h
  generalize update.assignments = assignments at h hupdate
  induction assignments generalizing item with
  | nil =>
    cases h
    exact hitem
  | cons first rest ih =>
    rw [List.foldlM_cons] at h
    obtain ⟨between, hfirst, hrest⟩ := bind_eq_ok.1 h
    have hbetween := Assignment.applyBelow_readable (hupdate first List.mem_cons_self) hitem hfirst
    exact ih hbetween hrest fun a ha => hupdate a (List.mem_cons_of_mem _ ha)

/-! ## Values of assignments -/

mutual

theorem value_of_mem_setAt {path : List String} {whole : Bool} {a : Assignment} : (value : Attribute) →
    value.Readable → a ∈ setAt path whole value → a.value.Readable
  | .map entries, hvalue, ha => by
    rw [setAt] at ha
    split at ha
    · cases List.mem_singleton.1 ha
      exact hvalue
    · exact value_of_mem_setEntries entries hvalue ha
  | .string _, hvalue, ha | .number _, hvalue, ha | .boolean _, hvalue, ha | .null, hvalue, ha
  | .list _, hvalue, ha => by
    cases List.mem_singleton.1 ha
    exact hvalue

theorem value_of_mem_setEntries {parent : List String} {a : Assignment} : (entries : Item) →
    (Attribute.map entries).Readable → a ∈ setEntries parent entries → a.value.Readable
  | [], _, ha => absurd ha List.not_mem_nil
  | (_, value) :: rest, hentries, ha => by
    have hall := Attribute.readable_map_iff.1 hentries
    rcases List.mem_append.1 ha with ha | ha
    · exact value_of_mem_setAt value (hall _ List.mem_cons_self) ha
    · refine value_of_mem_setEntries rest (Attribute.readable_map_iff.2 fun entry hentry => ?_) ha
      exact hall entry (List.mem_cons_of_mem _ hentry)

end

mutual

theorem value_of_mem_addAt {path : List String} {a : Assignment} : (value : Attribute) →
    value.Readable → a ∈ addAt path value → a.value.Readable
  | .map entries, hvalue, ha => value_of_mem_addEntries entries hvalue ha
  | .string _, hvalue, ha | .number _, hvalue, ha | .boolean _, hvalue, ha | .null, hvalue, ha
  | .list _, hvalue, ha => by
    cases List.mem_singleton.1 ha
    exact hvalue

theorem value_of_mem_addEntries {parent : List String} {a : Assignment} : (entries : Item) →
    (Attribute.map entries).Readable → a ∈ addEntries parent entries → a.value.Readable
  | [], _, ha => absurd ha List.not_mem_nil
  | (_, value) :: rest, hentries, ha => by
    have hall := Attribute.readable_map_iff.1 hentries
    rcases List.mem_append.1 ha with ha | ha
    · exact value_of_mem_addAt value (hall _ List.mem_cons_self) ha
    · refine value_of_mem_addEntries rest (Attribute.readable_map_iff.2 fun entry hentry => ?_) ha
      exact hall entry (List.mem_cons_of_mem _ hentry)

end

theorem Update.readable_set {item : Item} (h : (Attribute.map item).Readable) : (Update.set item).Readable :=
  fun _ ha => value_of_mem_setEntries item h ha

theorem Update.readable_add {item : Item} (h : (Attribute.map item).Readable) : (Update.add item).Readable :=
  fun _ ha => value_of_mem_addEntries item h ha

/-! ## Updates of tables -/

theorem readable_single {name : String} {value : Attribute} (h : value.Readable) :
    (Attribute.map [(name, value)]).Readable :=
  Attribute.readable_map_iff.2 fun _ hentry => List.mem_singleton.1 hentry ▸ h

theorem readable_ofJsonMap (data : Json.Map) : (Attribute.map (Attribute.ofJsonMap data)).Readable :=
  Attribute.readable_ofJson (.map data)

theorem Table.readable_updateItem (layout : TableLayout) (data : Json.Map) (time : String) :
    (Attribute.map (Table.updateItem layout data time)).Readable := by
  have hstamped : (Attribute.map [(updatedName, Attribute.string time)]).Readable := readable_single ⟨_, rfl⟩
  simp only [Table.updateItem]
  split
  · exact hstamped
  · exact hstamped.insert _ (readable_ofJsonMap data)

theorem TableLayout.readable_newItem (layout : TableLayout) (key : Key) (data : Json.Map) (time : String) :
    (Attribute.map (layout.newItem key (Attribute.ofJsonMap data) time)).Readable :=
  ((readable_keyItem layout key).insert _ (readable_ofJsonMap data)).insert _ ⟨_, rfl⟩

end KeyedRecords
