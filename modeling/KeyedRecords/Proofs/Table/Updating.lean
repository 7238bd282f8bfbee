import KeyedRecords.Proofs.Table.Failing
import KeyedRecords.Proofs.Update.Leaves

/-! Updates of table items. The data given is laid over the data of the item, leaf by leaf, and nothing else of the item
changes but its time. An update that enters a map where none is fails, and changes nothing at all. Main statement:
`Table.update_overlays`. -/

namespace KeyedRecords

section Update

variable {table : Table} (hmark : Unmarked table.layout.dataName) (hplace : table.layout.dataName ≠ updatedName)
  {item data : Item} (hdata : table.layout.dataOf? item = some data) {given : Json.Map}
  (hordered : (Json.map given).Ordered) (hnames : (Json.map given).Named Unmarked) (time : String)

include hmark hplace hdata hordered hnames

/-- An update that the data admits lays what is given over the data. -/
theorem Table.apply_updateItem_overlays (hadmits : Admits (some (.map data)) (.map given)) : ∃ updated after,
    (Update.set (updateItem table.layout given time)).apply item = .ok updated ∧
      table.layout.dataOf? updated = some after ∧
      Overlays (Json.LeafBelow given) (some (.map data)) (.map after) ∧
      Assoc.find? updated updatedName = some (.string time) ∧
      ∀ name, name ≠ table.layout.dataName → name ≠ updatedName →
        Assoc.find? updated name = Assoc.find? item name := by
  obtain ⟨after, hset, hoverlays⟩ := (setEntries_overlays hordered hnames [table.layout.dataName] data).1 hadmits
  obtain ⟨updated, happly, hfind, -⟩ := apply_set_data_names hmark time (TableLayout.dataOf?_eq_some_iff.1 hdata)
    hset (Or.inr hplace)
  refine ⟨updated, after, happly, TableLayout.dataOf?_eq_some_iff.2 ?_, hoverlays, ?_, fun name hname hstamp => ?_⟩
  · rw [hfind, find?_withData, if_pos rfl]
  · rw [hfind, find?_withData, if_neg (Ne.symm hplace), if_pos rfl]
  · rw [hfind, find?_withData, if_neg hname, if_neg hstamp]

omit hplace

/-- An update that the data does not admit cannot be made. -/
theorem Table.apply_updateItem_fails (hnot : ¬ Admits (some (.map data)) (.map given)) : ∃ e,
    (Update.set (updateItem table.layout given time)).apply item = .error e ∧ e.InvalidPath := by
  obtain ⟨e, hset, he⟩ := (setEntries_overlays hordered hnames [table.layout.dataName] data).2 hnot
  exact ⟨e, apply_set_data_fails hmark time (TableLayout.dataOf?_eq_some_iff.1 hdata) hset, he⟩

end Update

/-- In a store that table commands alone have written to, an update of an item with data succeeds if and only if the
data has a map wherever one is given that is not empty. Then the data given is laid over that of the item: each of its
leaves stands at its path, and all that is not below one stays. Of the item only the data and the time change, and of
the store only the item. Otherwise the store refuses the update for its path, and holds what it held. -/
theorem Table.update_overlays {memory : Memory} (hreached : memory.ReachedBy OfferedByAny) {table : Table}
    (hmark : Unmarked table.layout.dataName) (hplace : table.layout.dataName ≠ updatedName) {key : Key}
    {item data : Item} (hitem : memory.item? table.layout key = some item)
    (hdata : table.layout.dataOf? item = some data) {given : Json.Map} (hordered : (Json.map given).Ordered)
    (hnames : (Json.map given).Named Unmarked) {ε : Type} (environment : Environment ε) (pages : Nat) (e : ε) :
    (Admits (some (.map data)) (.map given) → ∃ json memory' updated after,
      environment.host.command pages (table.update key given) (memory, e) =
          some (.ok json, memory', (environment.now e).2) ∧
        itemJson updated = .ok json ∧ Memory.DiffersAt table.layout key memory (some updated) memory' ∧
        table.layout.dataOf? updated = some after ∧
        Overlays (Json.LeafBelow given) (some (.map data)) (.map after) ∧
        Assoc.find? updated updatedName = some (.string (environment.now e).1) ∧
        ∀ name, name ≠ table.layout.dataName → name ≠ updatedName →
          Assoc.find? updated name = Assoc.find? item name) ∧
    (¬ Admits (some (.map data)) (.map given) → ∃ failure memory',
      environment.host.command pages (table.update key given) (memory, e) =
          some (.error (.store failure), memory', (environment.now e).2) ∧
        failure.InvalidPath ∧ ∀ name, memory'.contents name = memory.contents name) := by
  constructor
  · intro hadmits
    obtain ⟨updated, after, happly, hafter, hoverlays, hstamp, hothers⟩ :=
      apply_updateItem_overlays hmark hplace hdata hordered hnames (environment.now e).1 hadmits
    have hreadable : (Attribute.map updated).Readable :=
      Update.apply_readable (Update.readable_set (readable_updateItem table.layout given _))
        (readable_of_reached hreached table.layout.table key item hitem) happly
    obtain ⟨json, hjson⟩ := hreadable
    have hread : itemJson updated = .ok json := hjson
    have hrun := command_update_applied environment pages e hitem happly
    rw [hread] at hrun
    exact ⟨json, _, updated, after, hrun, hread, Memory.differsAt_store .., hafter, hoverlays, hstamp, hothers⟩
  · intro hnot
    obtain ⟨failure, happly, hfailure⟩ :=
      apply_updateItem_fails hmark hdata hordered hnames (environment.now e).1 hnot
    exact ⟨failure, _, command_update_refused environment pages e hitem happly, hfailure, fun _ => rfl⟩

namespace Table

def siteClient : Program Unit :=
  (sales.put ⟨"SITE#s1", "SALES"⟩ [("opened", .string "1969"),
    ("place", .map [("city", .string "Oslo"), ("country", .string "NO")])]).run.bind fun _ => .done ()

def sited : Memory := (Environment.still.host.interleave [0, 0] [siteClient] ({}, ())).2.1

theorem sited_reached : sited.ReachedBy OfferedByAny := by
  refine ⟨Unit, Environment.still, (), _, _, fun client hclient => ?_, rfl⟩
  cases List.mem_singleton.1 hclient
  exact .next ⟨sales, .put _ _⟩ fun _ => .done

def siteData : Item :=
  [("opened", .string "1969"), ("place", .map [("city", .string "Oslo"), ("country", .string "NO")])]

theorem path_of_field {name field text : String} {path : List String} {found : Json}
    (h : (Json.map [(name, .map [(field, .string text)])]).valueAt path = some found) :
    path = [] ∨ (path = [name] ∧ found = .map [(field, .string text)]) ∨
      (path = [name, field] ∧ found = .string text) := by
  rcases path with _ | ⟨first, rest⟩
  · exact Or.inl rfl
  · rw [Json.valueAt_single] at h
    split at h
    · rename_i hfirst
      rcases rest with _ | ⟨second, rest⟩
      · cases h
        exact Or.inr (Or.inl ⟨by rw [hfirst], rfl⟩)
      · rw [Json.valueAt_single] at h
        split at h
        · rename_i hsecond
          cases rest with
          | nil =>
            cases h
            exact Or.inr (Or.inr ⟨by rw [hfirst, hsecond], rfl⟩)
          | cons third rest => cases h
        · cases h
    · cases h

/-- A city can be set in the place of a site, and its country stays. A day cannot be set in the year of its opening. -/
theorem update_overlays_site : ∃ item, sited.item? sales.layout ⟨"SITE#s1", "SALES"⟩ = some item ∧
    sales.layout.dataOf? item = some siteData ∧
    (∃ json memory' updated after, Environment.still.host.command 1
        (sales.update ⟨"SITE#s1", "SALES"⟩ [("place", .map [("city", .string "Bergen")])]) (sited, ()) =
          some (.ok json, memory', ()) ∧
      memory'.item? sales.layout ⟨"SITE#s1", "SALES"⟩ = some updated ∧ sales.layout.dataOf? updated = some after ∧
      (Attribute.map after).nodeAt ["place", "city"] = some (.leaf (.string "Bergen")) ∧
      (Attribute.map after).nodeAt ["place", "country"] = some (.leaf (.string "NO"))) ∧
    ∃ failure memory', Environment.still.host.command 1
        (sales.update ⟨"SITE#s1", "SALES"⟩ [("opened", .map [("day", .string "1")])]) (sited, ()) =
          some (.error (.store failure), memory', ()) ∧ failure.InvalidPath := by
  have hitem : ∃ item, sited.item? sales.layout ⟨"SITE#s1", "SALES"⟩ = some item ∧
      sales.layout.dataOf? item = some siteData := ⟨_, rfl, rfl⟩
  obtain ⟨item, hitem, hdata⟩ := hitem
  have hleaf : ∀ text entries, Json.string text ≠ .map entries := fun _ _ he => nomatch he
  have hordered : ∀ name other text, (Json.map [(name, .map [(other, .string text)])]).Ordered := fun name other text =>
    ((Json.ordered_of_not_map (hleaf text)).single other).single name
  have hnamed : ∀ {name other} text, Unmarked name → Unmarked other →
      (Json.map [(name, .map [(other, .string text)])]).Named Unmarked := fun text hname hother =>
    ((Json.named_of_not_map (hleaf text)).single hother).single hname
  refine ⟨item, hitem, hdata, ?_, ?_⟩
  · have hadmits : Admits (some (.map siteData)) (.map [("place", .map [("city", .string "Bergen")])]) := by
      intro path found hfound hnot
      rcases path_of_field hfound with rfl | ⟨rfl, -⟩ | ⟨rfl, rfl⟩
      · rfl
      · rfl
      · exact absurd (fun _ _ he => nomatch he) hnot
    obtain ⟨json, memory', updated, after, hrun, -, hdiffers, hafter, hoverlays, -, -⟩ :=
      (update_overlays sited_reached (by decide) (by decide) hitem hdata (hordered _ _ _)
        (hnamed _ (by decide) (by decide)) Environment.still 1 ()).1 hadmits
    refine ⟨json, memory', updated, after, hrun, hdiffers.item, hafter, ?_, ?_⟩
    · exact hoverlays.placed ["place", "city"] (.string "Bergen") ⟨by simp, rfl, fun _ _ he => nomatch he⟩ []
    · refine (hoverlays.kept ["place", "country"] fun front hfront leaf hleaf => ?_).trans rfl
      obtain ⟨hne, hvalue, hwhole⟩ := hleaf
      rcases path_of_field hvalue with rfl | ⟨rfl, rfl⟩ | ⟨rfl, rfl⟩
      · exact hne rfl
      · exact hwhole _ _ rfl
      · exact absurd hfront (by decide)
  · have hnot : ¬ Admits (some (.map siteData)) (.map [("opened", .map [("day", .string "1")])]) := fun hadmits => by
      have hmap := hadmits ["opened"] _ rfl fun hwhole => hwhole _ _ rfl
      exact absurd hmap (by decide)
    obtain ⟨failure, memory', hrun, hinvalid, -⟩ :=
      (update_overlays sited_reached (by decide) (by decide) hitem hdata (hordered _ _ _)
        (hnamed _ (by decide) (by decide)) Environment.still 1 ()).2 hnot
    exact ⟨failure, memory', hrun, hinvalid⟩

end Table

end KeyedRecords
