import KeyedRecords.Proofs.Counters.Merge

/-! Setting a tree without marks lays it over the one that is there. Each of its leaves is put at its path, all that is
not below a leaf stays, and it succeeds if and only if every map that it enters is there. Main statement:
`setEntries_overlays`. -/

namespace KeyedRecords

open Attribute (nodeIn nodeAt_entry)

/-- Whether a store says that a path of an update leads through something that is no map. -/
def StoreError.InvalidPath (e : StoreError) : Prop :=
  ∃ path : String, e = .validation s!"The document path '{path}' is invalid for update"

/-! ## Leaves -/

namespace Json

/-- Whether a value is set whole: it is no map, or it is an empty one. -/
def Whole (value : Json) : Prop := ∀ first rest, value ≠ .map (first :: rest)

def LeafAt (value : Json) (path : List String) (leaf : Json) : Prop := value.valueAt path = some leaf ∧ leaf.Whole

def LeafBelow (entries : Map) (path : List String) (leaf : Json) : Prop :=
  path ≠ [] ∧ (Json.map entries).LeafAt path leaf

theorem whole_map_iff {entries : Map} : (Json.map entries).Whole ↔ entries = [] := by
  cases entries with
  | nil => exact iff_of_true (fun _ _ he => nomatch he) rfl
  | cons first rest => exact iff_of_false (fun h => h first rest rfl) (List.cons_ne_nil first rest)

/-- There is nothing below a value that is set whole. -/
theorem eq_of_valueAt_whole {value : Json} (h : value.Whole) {path : List String} {found : Json}
    (hfound : value.valueAt path = some found) : path = [] ∧ found = value := by
  cases path with
  | nil =>
    rw [valueAt_nil] at hfound
    exact ⟨rfl, (Option.some.inj hfound).symm⟩
  | cons name rest =>
    cases value with
    | map entries =>
      cases whole_map_iff.1 h
      cases hfound
    | _ => cases hfound

theorem leafAt_of_whole {value : Json} (h : value.Whole) {path : List String} {leaf : Json} :
    value.LeafAt path leaf ↔ path = [] ∧ leaf = value := by
  constructor
  · rintro ⟨hleaf, -⟩
    exact eq_of_valueAt_whole h hleaf
  · rintro ⟨rfl, rfl⟩
    exact ⟨leaf.valueAt_nil, h⟩

theorem leafBelow_cons {entries : Map} {name : String} {path : List String} {leaf : Json} :
    LeafBelow entries (name :: path) leaf ↔
      ∃ value, Assoc.find? entries name = some value ∧ value.LeafAt path leaf := by
  constructor
  · rintro ⟨-, hleaf, hwhole⟩
    obtain ⟨value, hvalue, hleaf⟩ := Option.bind_eq_some_iff.1 hleaf
    exact ⟨value, hvalue, hleaf, hwhole⟩
  · rintro ⟨value, hvalue, hleaf, hwhole⟩
    exact ⟨List.cons_ne_nil _ _, Option.bind_eq_some_iff.2 ⟨value, hvalue, hleaf⟩, hwhole⟩

/-- The leaves of a map that is not empty are all below it. -/
theorem leafAt_map {entries : Map} (h : entries ≠ []) : (Json.map entries).LeafAt = LeafBelow entries := by
  funext path leaf
  refine propext ⟨fun hleaf => ⟨?_, hleaf⟩, And.right⟩
  rintro rfl
  obtain ⟨hleaf, hwhole⟩ := hleaf
  cases hleaf
  exact h (whole_map_iff.1 hwhole)

end Json

/-! ## Laying one tree over another -/

/-- Whether a tree, which may be missing, has a map wherever another one has one that is not empty. -/
def Admits (stored? : Option Attribute) (given : Json) : Prop :=
  ∀ path value, given.valueAt path = some value → ¬ value.Whole → nodeIn stored? path = some .map

/-- Whether a tree is another one, which may be missing, with some leaves put at their paths: there it is as they are,
where no leaf is above it is as it was, and in order if it was. -/
structure Overlays (leaves : List String → Json → Prop) (stored? : Option Attribute) (after : Attribute) : Prop where
  placed : ∀ path leaf, leaves path leaf → ∀ rest, after.nodeAt (path ++ rest) = (Attribute.ofJson leaf).nodeAt rest
  kept : ∀ path, (∀ front, front <+: path → ∀ leaf, ¬ leaves front leaf) → after.nodeAt path = nodeIn stored? path
  ordered : (∀ stored, stored? = some stored → stored.Ordered) → after.Ordered

theorem admits_of_whole {value : Json} (h : value.Whole) (stored? : Option Attribute) : Admits stored? value := by
  intro path found hfound hnot
  obtain ⟨rfl, rfl⟩ := Json.eq_of_valueAt_whole h hfound
  exact absurd h hnot

theorem admits_map_iff {item : Item} {entries : Json.Map} : Admits (some (.map item)) (.map entries) ↔
    ∀ name value, Assoc.find? entries name = some value → Admits (Assoc.find? item name) value := by
  constructor
  · intro h name value hvalue path found hfound hnot
    rw [← nodeAt_entry]
    exact h (name :: path) found (Option.bind_eq_some_iff.2 ⟨value, hvalue, hfound⟩) hnot
  · intro h path found hfound hnot
    cases path with
    | nil => exact Attribute.nodeAt_nil _
    | cons name path =>
      obtain ⟨value, hvalue, hfound⟩ := Option.bind_eq_some_iff.1 hfound
      exact (nodeAt_entry item name path).trans (h name value hvalue path found hfound hnot)

/-- A map with entries to enter is admitted only where there is a map. -/
theorem Admits.exists_map {stored? : Option Attribute} {first : String × Json} {rest : Json.Map}
    (h : Admits stored? (.map (first :: rest))) : ∃ inner, stored? = some (.map inner) :=
  Attribute.exists_map_of_nodeIn (h [] _ rfl fun hwhole => hwhole first rest rfl)

theorem overlays_of_whole {value : Json} (h : value.Whole) (hordered : value.Ordered) (stored? : Option Attribute) :
    Overlays value.LeafAt stored? (Attribute.ofJson value) where
  placed path leaf hleaf rest := by
    obtain ⟨rfl, rfl⟩ := (Json.leafAt_of_whole h).1 hleaf
    rfl
  kept path hnone := absurd ((Json.leafAt_of_whole h).2 ⟨rfl, rfl⟩) (hnone [] List.nil_prefix value)
  ordered _ := Attribute.ordered_ofJson hordered

/-- A map is laid over another one name by name. -/
theorem Overlays.of_entries {item after : Item} {entries : Json.Map}
    (hentries : ∀ name value, Assoc.find? entries name = some value → ∃ new, Assoc.find? after name = some new ∧
      Overlays value.LeafAt (Assoc.find? item name) new)
    (hothers : ∀ name, Assoc.find? entries name = none → Assoc.find? after name = Assoc.find? item name)
    (hsorted : Assoc.Sorted item → Assoc.Sorted after) :
    Overlays (Json.LeafBelow entries) (some (.map item)) (.map after) where
  placed path leaf hleaf rest := by
    cases path with
    | nil => exact absurd rfl hleaf.1
    | cons name path =>
      obtain ⟨value, hvalue, hleaf⟩ := Json.leafBelow_cons.1 hleaf
      obtain ⟨new, hnew, hoverlays⟩ := hentries name value hvalue
      rw [List.cons_append, nodeAt_entry, hnew]
      exact hoverlays.placed path leaf hleaf rest
  kept path hnone := by
    cases path with
    | nil => exact (Attribute.nodeAt_nil _).trans (Attribute.nodeAt_nil _).symm
    | cons name path =>
      show Attribute.nodeAt _ _ = Attribute.nodeAt _ _
      rw [nodeAt_entry, nodeAt_entry]
      cases hvalue : Assoc.find? entries name with
      | none => rw [hothers name hvalue]
      | some value =>
        obtain ⟨new, hnew, hoverlays⟩ := hentries name value hvalue
        rw [hnew]
        refine hoverlays.kept path fun front hfront leaf hleaf => ?_
        exact hnone (name :: front) (List.cons_prefix_cons.2 ⟨rfl, hfront⟩) leaf
          (Json.leafBelow_cons.2 ⟨value, hvalue, hleaf⟩)
  ordered hstored := by
    refine Attribute.ordered_of_entries hsorted hothers (fun name value hvalue => ?_) (hstored _ rfl)
    obtain ⟨new, hnew, hoverlays⟩ := hentries name value hvalue
    exact ⟨new, hnew, hoverlays.ordered⟩

/-! ## Setting a value without a mark -/

mutual

theorem setAt_ne_nil (path : List String) (whole : Bool) : (value : Attribute) → setAt path whole value ≠ []
  | .map entries => by
    rw [setAt]
    split
    · exact List.cons_ne_nil _ _
    · rename_i hentries
      cases entries with
      | nil => exact absurd (by simp) hentries
      | cons entry rest => exact setEntries_ne_nil path entry rest
  | .string _ | .number _ | .boolean _ | .null | .list _ => List.cons_ne_nil _ _

theorem setEntries_ne_nil (parent : List String) : (entry : String × Attribute) → (rest : Item) →
    setEntries parent (entry :: rest) ≠ []
  | (_, value), _ => fun h => setAt_ne_nil _ _ value (List.append_eq_nil_iff.1 h).1

end

/-- A value that is no map, or an empty one, is set whole. -/
theorem setAt_flat {value : Json} (h : value.Whole) (path : List String) :
    setAt path false (Attribute.ofJson value) = [⟨path, Attribute.ofJson value⟩] := by
  cases value with
  | map entries =>
    cases entries with
    | nil => rfl
    | cons first rest => exact absurd rfl (h first rest)
  | _ => rfl

/-- The entries of a map cannot be set where there is none. -/
theorem setAt_fails {path : List String} {name : String} {first : String × Json} {rest : Json.Map}
    {value? : Option Attribute} (hvalue : ∀ inner, value? ≠ some (.map inner)) : ∃ e,
    Assignment.Fails path.length .set (setAt (path ++ [name]) false (Attribute.ofJson (.map (first :: rest)))) name
      value? e ∧ e.InvalidPath := by
  have hset : setAt (path ++ [name]) false (Attribute.ofJson (.map (first :: rest))) =
      setEntries (path ++ [name]) (Attribute.ofJsonMap (first :: rest)) := rfl
  cases hassignments : setEntries (path ++ [name]) (Attribute.ofJsonMap (first :: rest)) with
  | nil => exact absurd hassignments (setEntries_ne_nil _ _ _)
  | cons assignment others =>
    rw [hset, hassignments]
    have hbelow := below_of_mem_setEntries (hassignments ▸ List.mem_cons_self)
    exact ⟨_, Assignment.fails_below hbelow hvalue, assignment.pathText, rfl⟩

section Unmarked

variable {entries : Json.Map} (hsorted : Assoc.Sorted entries) (hnames : (Json.map entries).Named Unmarked)

include hsorted hnames

theorem unmark_of_mem {entry : String × Json} (h : entry ∈ entries) : unmark entry.1 = (entry.1, false) :=
  unmark_of_not_suffix (hnames.inner (Assoc.find?_of_mem hsorted.nodup h)).1

theorem map_unmark : (entries.map fun entry => (unmark entry.1).1) = Assoc.keys entries :=
  List.map_congr_left fun _ hentry => congrArg Prod.fst (unmark_of_mem hsorted hnames hentry)

end Unmarked

/-! ## Setting a tree -/

section Setting

open Assignment (Changes Fails applyAt)

/-- Whether setting a value at a name lays it over what stands there, or fails if it cannot be. -/
def SetsOver (value : Json) : Prop :=
  ∀ (path : List String) (name : String) (stored? : Option Attribute),
    (Admits stored? value → ∃ new, Changes path.length .set (setAt (path ++ [name]) false (Attribute.ofJson value)) name
        stored? new ∧ Overlays value.LeafAt stored? new) ∧
    (¬ Admits stored? value → ∃ e, Fails path.length .set (setAt (path ++ [name]) false (Attribute.ofJson value)) name
        stored? e ∧ e.InvalidPath)

theorem setsOver_of_whole {value : Json} (h : value.Whole) (hordered : value.Ordered) : SetsOver value := by
  intro path name stored?
  refine ⟨fun _ => ⟨Attribute.ofJson value, ?_, overlays_of_whole h hordered stored?⟩,
    fun hnot => absurd (admits_of_whole h stored?) hnot⟩
  rw [setAt_flat h]
  exact Assignment.changes_last (by simp) (newValue_set _ _)

section Entries

variable {entries : Json.Map} (hsorted : Assoc.Sorted entries) (hnames : (Json.map entries).Named Unmarked)
  (hsets : ∀ entry ∈ entries, SetsOver entry.2) (path : List String) (item : Item)

include hsorted hnames hsets

theorem foldlM_setEntries_overlays (hadmits : Admits (some (.map item)) (.map entries)) :
    ∃ after, (setEntries path (Attribute.ofJsonMap entries)).foldlM (applyAt path.length .set) item = .ok after ∧
      Overlays (Json.LeafBelow entries) (some (.map item)) (.map after) := by
  have hgroups : ∀ entry ∈ entries, ∃ new, Changes path.length .set
      (setAt (path ++ [(unmark entry.1).1]) (unmark entry.1).2 (Attribute.ofJson entry.2)) (unmark entry.1).1
        (Assoc.find? item (unmark entry.1).1) new ∧ Overlays entry.2.LeafAt (Assoc.find? item entry.1) new := by
    intro entry hentry
    rw [unmark_of_mem hsorted hnames hentry]
    exact (hsets entry hentry path entry.1 _).1
      (admits_map_iff.1 hadmits _ _ (Assoc.find?_of_mem hsorted.nodup hentry))
  obtain ⟨after, hrun, hentries, hothers, hkept⟩ :=
    Assignment.foldlM_changes (map_unmark hsorted hnames ▸ hsorted.nodup) hgroups
  rw [setEntries_ofJsonMap]
  refine ⟨after, hrun, Overlays.of_entries (fun name value hvalue => ?_) (fun name hnone => ?_) hkept⟩
  · have hentry := Assoc.mem_of_find? hvalue
    have hnew := hentries _ hentry
    rwa [unmark_of_mem hsorted hnames hentry] at hnew
  · exact hothers name (map_unmark hsorted hnames ▸ Assoc.find?_eq_none_iff.1 hnone)

theorem foldlM_setEntries_fails (hnot : ¬ Admits (some (.map item)) (.map entries)) :
    ∃ e, (setEntries path (Attribute.ofJsonMap entries)).foldlM (applyAt path.length .set) item = .error e ∧
      e.InvalidPath := by
  simp only [admits_map_iff, not_forall] at hnot
  obtain ⟨name, value, hvalue, hnot⟩ := hnot
  have hentry := Assoc.mem_of_find? hvalue
  rw [setEntries_ofJsonMap]
  -- The entries before the one that fails may well be set: that it comes to a failure does not depend on them.
  refine Assignment.foldlM_fails (map_unmark hsorted hnames ▸ hsorted.nodup) (fun other hother => ?_)
    ⟨(name, value), hentry, ?_⟩
  · rw [unmark_of_mem hsorted hnames hother]
    by_cases hadmits : Admits (Assoc.find? item other.1) other.2
    · obtain ⟨new, hchanges, -⟩ := (hsets other hother path other.1 _).1 hadmits
      exact Or.inl ⟨new, hchanges⟩
    · exact Or.inr ((hsets other hother path other.1 _).2 hadmits)
  · rw [unmark_of_mem hsorted hnames hentry]
    obtain ⟨e, hfails, -⟩ := (hsets _ hentry path name _).2 hnot
    exact ⟨e, hfails⟩

/-- A map is set over what stands at a name entry by entry, if a map stands there. -/
theorem setsOver_map {first : String × Json} {rest : Json.Map} (he : entries = first :: rest) :
    SetsOver (.map entries) := by
  intro path name stored?
  have hset : setAt (path ++ [name]) false (Attribute.ofJson (.map entries)) =
      setEntries (path ++ [name]) (Attribute.ofJsonMap entries) := by
    rw [he]
    rfl
  have hbelow : ∀ a ∈ setEntries (path ++ [name]) (Attribute.ofJsonMap entries), a.Below path.length name :=
    fun _ ha => below_of_mem_setEntries ha
  have hlength : (path ++ [name]).length = path.length + 1 := List.length_append
  rw [hset, Json.leafAt_map (he ▸ List.cons_ne_nil first rest)]
  constructor
  · intro hadmits
    obtain ⟨inner, rfl⟩ := (he ▸ hadmits).exists_map
    obtain ⟨after, hrun, hoverlays⟩ :=
      foldlM_setEntries_overlays hsorted hnames hsets (path ++ [name]) inner hadmits
    exact ⟨.map after, Assignment.changes_nested hbelow (hlength ▸ hrun), hoverlays⟩
  · intro hnot
    by_cases hmap : ∃ inner, stored? = some (.map inner)
    · obtain ⟨inner, rfl⟩ := hmap
      obtain ⟨e, hrun, hinvalid⟩ := foldlM_setEntries_fails hsorted hnames hsets (path ++ [name]) inner hnot
      exact ⟨e, Assignment.fails_nested hbelow (hlength ▸ hrun), hinvalid⟩
    · rw [← hset, he]
      exact setAt_fails fun inner hinner => hmap ⟨inner, hinner⟩

end Entries

theorem setsOver (value : Json) (hordered : value.Ordered) (hnames : value.Named Unmarked) : SetsOver value := by
  induction value using Json.tree_induction with
  | leaf value hleaf => exact setsOver_of_whole (fun first rest => hleaf (first :: rest)) hordered
  | map entries ih =>
    -- An empty map is not entered but set whole, whatever stands there.
    cases hentries : entries with
    | nil => exact setsOver_of_whole (fun _ _ he => nomatch he) (hentries ▸ hordered)
    | cons first rest =>
      rw [← hentries]
      refine setsOver_map hordered.sorted hnames (fun entry hentry => ?_) hentries
      have hvalue := Assoc.find?_of_mem hordered.sorted.nodup hentry
      exact ih entry hentry (hordered.inner hvalue) (hnames.inner hvalue).2

/-- Setting some entries in an item lays them over it, and fails if a map is to be entered that is not there. -/
theorem setEntries_overlays {entries : Json.Map} (hordered : (Json.map entries).Ordered)
    (hnames : (Json.map entries).Named Unmarked) (path : List String) (item : Item) :
    (Admits (some (.map item)) (.map entries) → ∃ after,
      (setEntries path (Attribute.ofJsonMap entries)).foldlM (applyAt path.length .set) item = .ok after ∧
        Overlays (Json.LeafBelow entries) (some (.map item)) (.map after)) ∧
    (¬ Admits (some (.map item)) (.map entries) → ∃ e,
      (setEntries path (Attribute.ofJsonMap entries)).foldlM (applyAt path.length .set) item = .error e ∧
        e.InvalidPath) := by
  have hsets : ∀ entry ∈ entries, SetsOver entry.2 := by
    intro entry hentry
    have hvalue := Assoc.find?_of_mem hordered.sorted.nodup hentry
    exact setsOver entry.2 (hordered.inner hvalue) (hnames.inner hvalue).2
  exact ⟨foldlM_setEntries_overlays hordered.sorted hnames hsets path item,
    foldlM_setEntries_fails hordered.sorted hnames hsets path item⟩

end Setting

end KeyedRecords
