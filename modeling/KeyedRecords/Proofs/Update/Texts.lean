import KeyedRecords.Proofs.Update.Keys
import KeyedRecords.Store.Contents

/-! The texts that updates leave in the attributes of an item. A path that runs through a text fails and nothing can be
added to a text, so what counts is the value that an attribute is last set to. Main statements: `Update.textOf?_set`,
`Update.textOf?_add`, `TableLayout.keyOf?_update_iff`. -/

namespace KeyedRecords

open BoundQuery (textOf?)

theorem textOf?_eq_some_iff {item : Item} {name text : String} :
    textOf? item name = some text ↔ Assoc.find? item name = some (.string text) := by
  cases h : Assoc.find? item name with
  | none => simp [textOf?, h]
  | some value => cases value <;> simp [textOf?, h, Attribute.asString?]

theorem textOf?_insert (item : Item) (name other : String) (value : Attribute) :
    textOf? (Assoc.insert item name value) other =
      if other = name then value.asString? else textOf? item other := by
  rw [textOf?, Assoc.find?_insert]
  split <;> rfl

namespace Assignment

variable {item after : Item} {assignment : Assignment}

theorem textOf?_set (h : assignment.apply .set item = .ok after) (name : String) :
    textOf? after name = if assignment.path = [name] then assignment.value.asString? else textOf? item name := by
  unfold apply at h
  rcases hpath : assignment.path with _ | ⟨first, _ | ⟨second, rest⟩⟩
  · rw [hpath] at h
    cases h
  · rw [hpath] at h
    obtain ⟨value, hvalue, h⟩ := bind_eq_ok.1 h
    cases hvalue
    cases h
    rw [textOf?_insert]
    by_cases hname : name = first
    · rw [if_pos hname, if_pos (by rw [hname])]
    · rw [if_neg hname, if_neg fun he => hname (List.cons.inj he).1.symm]
  · rw [if_neg (by simp)]
    rw [hpath, applyBelow] at h
    · split at h
      · rename_i inner hinner
        obtain ⟨changed, -, h⟩ := bind_eq_ok.1 h
        cases h
        rw [textOf?_insert]
        split
        · rename_i hname
          rw [hname, textOf?, hinner]
          rfl
        · rfl
      · cases h
    · exact List.cons_ne_nil _ _

/-- Nothing can be added to a text. -/
theorem textOf?_add (h : assignment.apply .add item = .ok after) {name text : String}
    (htext : textOf? item name = some text) : textOf? after name = some text := by
  have hfound := textOf?_eq_some_iff.1 htext
  refine textOf?_eq_some_iff.2 (apply_leaf hfound rfl h fun hpath => ?_)
  rw [apply, hpath, applyBelow] at h
  obtain ⟨value, hvalue, -⟩ := bind_eq_ok.1 h
  rw [hfound] at hvalue
  obtain ⟨path, own⟩ := assignment
  cases own <;> cases hvalue

end Assignment

/-- What is set at a path itself, rather than below it, is the value whole. -/
theorem value_of_setAt_self {path : List String} {whole : Bool} {value : Attribute} {a : Assignment}
    (h : a ∈ setAt path whole value) (hpath : a.path = path) : a.value = value := by
  cases value with
  | map entries =>
    rw [setAt] at h
    split at h
    · cases List.mem_singleton.1 h
      rfl
    · obtain ⟨name, hbelow⟩ := path_of_mem_setEntries entries h
      have hlength := hbelow.length_le
      rw [hpath, List.length_append] at hlength
      exact absurd hlength (Nat.not_succ_le_self _)
  | string _ | number _ | boolean _ | null | list _ =>
    cases List.mem_singleton.1 h
    rfl

namespace Update

/-- The value that an update last sets an attribute to, whatever it may set below it. -/
def lastSet? (update : Update) (name : String) : Option Attribute :=
  match update.action with
  | .set => (update.assignments.reverse.find? (·.path = [name])).map (·.value)
  | .add => none

variable {update : Update} {item after : Item}

/-- After an update an attribute holds the text that it was last set to, or the one that it held. -/
theorem textOf?_set (hset : update.action = .set) (h : update.apply item = .ok after) (name : String) :
    textOf? after name = (update.lastSet? name).elim (textOf? item name) Attribute.asString? := by
  unfold apply at h
  rw [lastSet?, hset]
  rw [hset] at h
  dsimp only
  generalize update.assignments = assignments at h
  induction assignments generalizing item with
  | nil =>
    cases h
    rfl
  | cons first rest ih =>
    rw [List.foldlM_cons] at h
    obtain ⟨between, hfirst, hrest⟩ := bind_eq_ok.1 h
    rw [ih hrest, Assignment.textOf?_set hfirst name, List.reverse_cons, List.find?_append]
    cases rest.reverse.find? (·.path = [name]) with
    | some last => rfl
    | none =>
      by_cases hpath : first.path = [name]
      · simp [hpath]
      · simp [hpath]

theorem textOf?_add (hadd : update.action = .add) (h : update.apply item = .ok after) {name text : String}
    (htext : textOf? item name = some text) : textOf? after name = some text := by
  unfold apply at h
  rw [hadd] at h
  generalize update.assignments = assignments at h
  induction assignments generalizing item with
  | nil =>
    cases h
    exact htext
  | cons first rest ih =>
    rw [List.foldlM_cons] at h
    obtain ⟨between, hfirst, hrest⟩ := bind_eq_ok.1 h
    exact ih (Assignment.textOf?_add hfirst htext) hrest

/-- A text is still there after an update exactly if it is not last set to anything else. -/
theorem textOf?_kept_iff (h : update.apply item = .ok after) {name text : String}
    (htext : textOf? item name = some text) :
    textOf? after name = some text ↔ ∀ value ∈ update.lastSet? name, value = .string text := by
  cases haction : update.action with
  | add =>
    have hnone : update.lastSet? name = none := by rw [lastSet?, haction]
    simp [hnone, textOf?_add haction h htext]
  | set =>
    rw [textOf?_set haction h name]
    cases update.lastSet? name with
    | none => simp [htext]
    | some value => cases value <;> simp [Attribute.asString?]

/-- What setting an item sets a single name to is the value of one of its entries. -/
theorem exists_of_lastSet?_set {item : Item} {name : String} {value : Attribute}
    (h : value ∈ (Update.set item).lastSet? name) : ∃ entry ∈ item, (unmark entry.1).1 = name ∧ entry.2 = value := by
  obtain ⟨a, hfound, rfl⟩ := Option.map_eq_some_iff.1 h
  have hpath : a.path = [name] := by simpa using List.find?_some hfound
  have hmem : a ∈ setEntries [] item := List.mem_reverse.1 (List.mem_of_find?_eq_some hfound)
  rw [setEntries_eq_flatMap, List.mem_flatMap] at hmem
  obtain ⟨entry, hentry, hmem⟩ := hmem
  obtain ⟨rest, hrest⟩ := path_of_mem_setAt entry.2 hmem
  rw [hpath] at hrest
  have hname : (unmark entry.1).1 = name := (List.cons.inj hrest).1
  exact ⟨entry, hentry, hname, (value_of_setAt_self hmem (by rw [hpath, hname]; rfl)).symm⟩

end Update

namespace TableLayout

variable {layout : TableLayout}

theorem keyOf?_eq_some_iff_texts {item : Item} {key : Key} : layout.keyOf? item = some key ↔
    textOf? item layout.partitionName = some key.partition ∧ textOf? item layout.sortName = some key.sort := by
  rw [keyOf?_eq_some_iff, textOf?_eq_some_iff, textOf?_eq_some_iff]

/-- Whether an update sets the key attributes of the item under a key last to that key, if to anything. -/
structure Retains (layout : TableLayout) (key : Key) (update : Update) : Prop where
  partition : ∀ value ∈ update.lastSet? layout.partitionName, value = .string key.partition
  sort : ∀ value ∈ update.lastSet? layout.sortName, value = .string key.sort

/-- An item still carries its key after an update exactly if the update retains it. -/
theorem keyOf?_update_iff {update : Update} {item after : Item} {key : Key} (hkey : layout.keyOf? item = some key)
    (happly : update.apply item = .ok after) : layout.keyOf? after = some key ↔ layout.Retains key update := by
  obtain ⟨hpartition, hsort⟩ := keyOf?_eq_some_iff_texts.1 hkey
  rw [keyOf?_eq_some_iff_texts, Update.textOf?_kept_iff happly hpartition, Update.textOf?_kept_iff happly hsort]
  exact ⟨fun ⟨hp, hs⟩ => ⟨hp, hs⟩, fun h => ⟨h.partition, h.sort⟩⟩

end TableLayout

end KeyedRecords
