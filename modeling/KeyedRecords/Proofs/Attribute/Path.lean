import KeyedRecords.Attribute

/-! Paths through nested maps. A tree of attributes in order is known from what stands at its paths: a map, or a
value that is none. Main statements: `eq_of_nodeAt_eq`, `nodeAt_insert`. -/

namespace KeyedRecords

/-! ## Paths into JSON -/

namespace Json

def valueAt : Json → List String → Option Json
  | value, [] => some value
  | map entries, name :: rest => (Assoc.find? entries name).bind fun value => value.valueAt rest
  | _, _ :: _ => none

theorem valueAt_nil (value : Json) : value.valueAt [] = some value := by
  cases value <;> rfl

theorem valueAt_map (entries : Map) (name : String) (rest : List String) :
    (map entries).valueAt (name :: rest) =
      (Assoc.find? entries name).bind fun value => value.valueAt rest := rfl

theorem valueAt_single (name other : String) (value : Json) (rest : List String) :
    (map [(name, value)]).valueAt (other :: rest) = if other = name then value.valueAt rest else none := by
  rw [valueAt_map, Assoc.find?, Assoc.find?_nil]
  by_cases h : other = name
  · rw [if_pos h.symm, if_pos h]
    rfl
  · rw [if_neg (Ne.symm h), if_neg h]
    rfl

theorem valueAt_entry {entries : Map} {name : String} {value : Json} (h : Assoc.find? entries name = some value)
    (rest : List String) : (map entries).valueAt (name :: rest) = value.valueAt rest := by
  rw [valueAt_map, h]
  rfl

/-! ## What holds throughout a value -/

/-- Whether all that stands at the paths of a value is of a kind. -/
def Throughout (P : List String → Json → Prop) (value : Json) : Prop :=
  ∀ path found, value.valueAt path = some found → P path found

section Throughout

variable {P : List String → Json → Prop} {entries : Map} {name : String} {value : Json}

theorem Throughout.inner (h : (map entries).Throughout P) (hvalue : Assoc.find? entries name = some value) :
    value.Throughout fun path => P (name :: path) :=
  fun path found hfound => h (name :: path) found ((valueAt_entry hvalue path).trans hfound)

theorem Throughout.single (h : value.Throughout fun path => P (name :: path)) (hself : P [] (map [(name, value)])) :
    (map [(name, value)]).Throughout P := by
  intro path found hfound
  cases path with
  | nil =>
    cases hfound
    exact hself
  | cons other rest =>
    rw [valueAt_single] at hfound
    split at hfound
    · rename_i he
      exact he ▸ h rest found hfound
    · cases hfound

theorem throughout_of_not_map (hleaf : ∀ entries, value ≠ map entries) (hself : P [] value) :
    value.Throughout P := by
  intro path found hfound
  cases path with
  | nil =>
    rw [valueAt_nil] at hfound
    exact Option.some.inj hfound ▸ hself
  | cons name rest => cases value <;> first | exact absurd rfl (hleaf _) | cases hfound

end Throughout

/-- Whether all that is in the nested maps of a value is of a kind. -/
def Leaves (P : Json → Prop) (value : Json) : Prop :=
  value.Throughout fun _ found => (∃ entries, found = map entries) ∨ P found

section Leaves

variable {P : Json → Prop} {entries : Map} {name : String} {value : Json}

theorem Leaves.inner (h : (map entries).Leaves P) (hvalue : Assoc.find? entries name = some value) :
    value.Leaves P := Throughout.inner h hvalue

theorem Leaves.single (h : value.Leaves P) (name : String) : (map [(name, value)]).Leaves P :=
  Throughout.single h (Or.inl ⟨_, rfl⟩)

theorem Leaves.cases (h : value.Leaves P) : (∃ entries, value = map entries) ∨ P value :=
  h [] value value.valueAt_nil

theorem leaves_of_not_map (hleaf : ∀ entries, value ≠ map entries) (h : P value) : value.Leaves P :=
  throughout_of_not_map hleaf (Or.inr h)

end Leaves

/-- Whether all maps in a value are of a kind. -/
def Maps (P : Map → Prop) (value : Json) : Prop :=
  ∀ path entries, value.valueAt path = some (map entries) → P entries

section Maps

variable {P : Map → Prop} {entries : Map} {name : String} {value : Json}

theorem maps_iff_throughout :
    value.Maps P ↔ value.Throughout fun _ found => ∀ entries, found = map entries → P entries :=
  ⟨fun h path _ hfound entries he => h path entries (he ▸ hfound), fun h path _ hfound => h path _ hfound _ rfl⟩

theorem Maps.inner (h : (map entries).Maps P) (hvalue : Assoc.find? entries name = some value) : value.Maps P :=
  maps_iff_throughout.2 (Throughout.inner (maps_iff_throughout.1 h) hvalue)

theorem Maps.single (h : value.Maps P) (hself : P [(name, value)]) : (map [(name, value)]).Maps P :=
  maps_iff_throughout.2 (Throughout.single (maps_iff_throughout.1 h) fun _ he => Json.map.inj he ▸ hself)

theorem maps_of_not_map (hleaf : ∀ entries, value ≠ map entries) : value.Maps P :=
  maps_iff_throughout.2 (throughout_of_not_map hleaf fun entries he => absurd he (hleaf entries))

end Maps

def Ordered (value : Json) : Prop := value.Maps Assoc.Sorted

theorem Ordered.sorted {entries : Map} (h : (map entries).Ordered) : Assoc.Sorted entries :=
  h [] entries rfl

theorem ordered_of_not_map {value : Json} (h : ∀ entries, value ≠ map entries) : value.Ordered := maps_of_not_map h

theorem Ordered.single {value : Json} (h : value.Ordered) (name : String) :
    (map [(name, value)]).Ordered := Maps.single h (List.pairwise_singleton _ _)

theorem Ordered.inner {entries : Map} (h : (map entries).Ordered) {name : String} {value : Json}
    (hvalue : Assoc.find? entries name = some value) : value.Ordered := Maps.inner h hvalue

/-- What holds of a map if it holds of the values in it, and of every other value, holds of all values. -/
theorem tree_induction {motive : Json → Prop}
    (leaf : ∀ value, (∀ entries, value ≠ map entries) → motive value)
    (map : ∀ entries, (∀ entry ∈ entries, motive entry.2) → motive (.map entries)) :
    ∀ value, motive value
  | .map entries => map entries fun entry hentry =>
      have hsize := List.sizeOf_lt_of_mem hentry
      tree_induction leaf map entry.2
  | .null => leaf _ fun _ he => by cases he
  | .boolean value => leaf _ fun _ he => by cases he
  | .number value => leaf _ fun _ he => by cases he
  | .string text => leaf _ fun _ he => by cases he
  | .list elements => leaf _ fun _ he => by cases he
termination_by value => sizeOf value
decreasing_by
  obtain ⟨name, value⟩ := entry
  simp only [Prod.mk.sizeOf_spec] at hsize
  simp only [Json.map.sizeOf_spec]
  omega

end Json

/-! ## Paths into attributes -/

namespace Attribute

def valueAt : Attribute → List String → Option Attribute
  | value, [] => some value
  | map entries, name :: rest => (Assoc.find? entries name).bind fun value => value.valueAt rest
  | _, _ :: _ => none

/-- What stands at a path: a map, whatever it holds, or another value. -/
inductive Node where
  | map
  | leaf (value : Attribute)
  deriving DecidableEq

def node : Attribute → Node
  | map _ => .map
  | value => .leaf value

def nodeAt (value : Attribute) (path : List String) : Option Node := (value.valueAt path).map node

def Ordered (value : Attribute) : Prop :=
  ∀ path entries, value.valueAt path = some (map entries) → Assoc.Sorted entries

theorem valueAt_nil (value : Attribute) : value.valueAt [] = some value := by
  cases value <;> rfl

theorem nodeAt_nil (value : Attribute) : value.nodeAt [] = some value.node := by
  rw [nodeAt, valueAt_nil]
  rfl

theorem nodeAt_cons (entries : Item) (name : String) (rest : List String) :
    (map entries).nodeAt (name :: rest) =
      (Assoc.find? entries name).bind fun value => value.nodeAt rest := by
  simp only [nodeAt, valueAt]
  cases Assoc.find? entries name <;> rfl

theorem node_eq_map_iff {value : Attribute} : value.node = .map ↔ ∃ entries, value = map entries := by
  cases value <;> simp [node]

theorem node_eq_leaf_iff {value leaf : Attribute} : value.node = .leaf leaf ↔
    value = leaf ∧ ∀ entries, value ≠ map entries := by
  cases value <;> simp [node]

/-- A value that is no map has nothing below it. -/
theorem nodeAt_cons_of_not_map {value : Attribute} (h : ∀ entries, value ≠ map entries) (name : String)
    (rest : List String) : value.nodeAt (name :: rest) = none := by
  cases value with
  | map entries => exact absurd rfl (h entries)
  | _ => rfl

theorem nodeAt_insert (entries : Item) (name other : String) (value : Attribute) (rest : List String) :
    (map (Assoc.insert entries name value)).nodeAt (other :: rest) =
      if other = name then value.nodeAt rest else (map entries).nodeAt (other :: rest) := by
  rw [nodeAt_cons, nodeAt_cons, Assoc.find?_insert]
  split <;> rfl

/-! ## Order -/

theorem Ordered.sorted {entries : Item} (h : (map entries).Ordered) : Assoc.Sorted entries :=
  h [] entries rfl

theorem Ordered.inner {entries : Item} (h : (map entries).Ordered) {name : String} {value : Attribute}
    (hvalue : Assoc.find? entries name = some value) : value.Ordered := by
  intro path inner hinner
  refine h (name :: path) inner ?_
  simp only [valueAt, hvalue]
  exact hinner

theorem ordered_map {entries : Item} (hsorted : Assoc.Sorted entries)
    (hinner : ∀ name value, Assoc.find? entries name = some value → value.Ordered) :
    (map entries).Ordered := by
  intro path found hfound
  cases path with
  | nil =>
    cases hfound
    exact hsorted
  | cons name rest =>
    obtain ⟨value, hvalue, hfound⟩ := Option.bind_eq_some_iff.1 hfound
    exact hinner name value hvalue rest found hfound

/-- A map stays in order if whatever comes in the place of an entry, or beside the others, is in order. -/
theorem ordered_of_entries {α : Type} {item after : Item} {entries : List (String × α)}
    (hsorted : Assoc.Sorted item → Assoc.Sorted after)
    (hothers : ∀ name, Assoc.find? entries name = none → Assoc.find? after name = Assoc.find? item name)
    (hentries : ∀ name value, Assoc.find? entries name = some value → ∃ new, Assoc.find? after name = some new ∧
      ((∀ stored, Assoc.find? item name = some stored → stored.Ordered) → new.Ordered))
    (hitem : (map item).Ordered) : (map after).Ordered := by
  refine ordered_map (hsorted hitem.sorted) fun name found hfound => ?_
  cases hvalue : Assoc.find? entries name with
  | none => exact hitem.inner ((hothers name hvalue).symm.trans hfound)
  | some value =>
    obtain ⟨new, hnew, hordered⟩ := hentries name value hvalue
    cases hnew.symm.trans hfound
    exact hordered fun stored hstored => hitem.inner hstored

theorem ordered_empty : (map []).Ordered := ordered_map List.Pairwise.nil nofun

theorem ordered_of_not_map {value : Attribute} (h : ∀ entries, value ≠ map entries) : value.Ordered := by
  intro path entries hentries
  cases path with
  | nil =>
    rw [valueAt_nil] at hentries
    cases hentries
    exact absurd rfl (h entries)
  | cons name rest => cases value <;> first | exact absurd rfl (h _) | cases hentries

theorem Ordered.insert {entries : Item} (h : (map entries).Ordered) (name : String) {value : Attribute}
    (hvalue : value.Ordered) : (map (Assoc.insert entries name value)).Ordered := by
  refine ordered_map (Assoc.sorted_insert h.sorted name value) fun other found hfound => ?_
  rw [Assoc.find?_insert] at hfound
  split at hfound
  · cases hfound
    exact hvalue
  · exact h.inner hfound

/-- What holds of a map if it holds of the values in it, and of every other value, holds of all trees. -/
theorem tree_induction {motive : Attribute → Prop}
    (leaf : ∀ value, (∀ entries, value ≠ map entries) → motive value)
    (map : ∀ entries, (∀ name value, Assoc.find? entries name = some value → motive value) →
      motive (.map entries)) : ∀ value, motive value
  | .map entries => map entries fun name value hvalue =>
      have hsize := List.sizeOf_lt_of_mem (Assoc.mem_of_find? hvalue)
      tree_induction leaf map value
  | .string text => leaf _ fun _ he => by cases he
  | .number text => leaf _ fun _ he => by cases he
  | .boolean value => leaf _ fun _ he => by cases he
  | .null => leaf _ fun _ he => by cases he
  | .list elements => leaf _ fun _ he => by cases he
termination_by value => sizeOf value
decreasing_by
  simp only [Prod.mk.sizeOf_spec] at hsize
  simp only [Attribute.map.sizeOf_spec]
  omega

/-- Trees in order with the same at every path are equal. -/
theorem eq_of_nodeAt_eq {a b : Attribute} (ha : a.Ordered) (hb : b.Ordered)
    (h : ∀ path, a.nodeAt path = b.nodeAt path) : a = b := by
  have hroot : a.node = b.node := by
    have hnil := h []
    rw [nodeAt_nil, nodeAt_nil] at hnil
    exact Option.some.inj hnil
  induction a using tree_induction generalizing b with
  | leaf a hleaf => exact (node_eq_leaf_iff.1 (hroot.symm.trans (node_eq_leaf_iff.2 ⟨rfl, hleaf⟩))).1.symm
  | map entries ih =>
    obtain ⟨others, rfl⟩ := node_eq_map_iff.1 hroot.symm
    have hname : ∀ name rest, ((Assoc.find? entries name).bind fun value => value.nodeAt rest) =
        (Assoc.find? others name).bind fun value => value.nodeAt rest := by
      intro name rest
      rw [← nodeAt_cons, ← nodeAt_cons, h (name :: rest)]
    have hfind : ∀ name, Assoc.find? entries name = Assoc.find? others name := by
      intro name
      have hnil := hname name []
      cases hvalue : Assoc.find? entries name with
      | none =>
        cases hother : Assoc.find? others name with
        | none => rfl
        | some other => simp [hvalue, hother, nodeAt_nil] at hnil
      | some value =>
        cases hother : Assoc.find? others name with
        | none => simp [hvalue, hother, nodeAt_nil] at hnil
        | some other =>
          have hpaths : ∀ rest, value.nodeAt rest = other.nodeAt rest := by
            intro rest
            simpa [hvalue, hother] using hname name rest
          have hnodes : value.node = other.node := by simpa [nodeAt_nil] using hpaths []
          rw [ih name value hvalue (ha.inner hvalue) (hb.inner hother) hpaths hnodes]
    rw [Assoc.eq_of_find?_eq ha.sorted hb.sorted hfind]

/-! ## Below a path -/

theorem valueAt_append (value : Attribute) (path rest : List String) :
    value.valueAt (path ++ rest) = (value.valueAt path).bind fun found => found.valueAt rest := by
  induction path generalizing value with
  | nil =>
    rw [List.nil_append, valueAt_nil]
    rfl
  | cons name path ih =>
    cases value with
    | map entries =>
      rw [List.cons_append, valueAt, valueAt]
      cases Assoc.find? entries name with
      | none => rfl
      | some inner => exact ih inner
    | _ => rfl

theorem nodeAt_append (value : Attribute) (path rest : List String) :
    value.nodeAt (path ++ rest) = (value.valueAt path).bind fun found => found.nodeAt rest := by
  rw [nodeAt, valueAt_append]
  cases value.valueAt path <;> rfl

theorem Ordered.at_path {value found : Attribute} (h : value.Ordered) {path : List String}
    (hfound : value.valueAt path = some found) : found.Ordered := by
  intro rest entries hentries
  refine h (path ++ rest) entries ?_
  rw [valueAt_append, hfound]
  exact hentries

/-- Trees in order with the same at a path and below it have the same value there. -/
theorem valueAt_eq_of_nodeAt_eq {a b : Attribute} (ha : a.Ordered) (hb : b.Ordered) {path : List String}
    (h : ∀ rest, a.nodeAt (path ++ rest) = b.nodeAt (path ++ rest)) : a.valueAt path = b.valueAt path := by
  simp only [nodeAt_append] at h
  cases hfound : a.valueAt path with
  | none =>
    cases hother : b.valueAt path with
    | none => rfl
    | some other => simpa [hfound, hother, nodeAt_nil] using h []
  | some found =>
    cases hother : b.valueAt path with
    | none => simpa [hfound, hother, nodeAt_nil] using h []
    | some other =>
      rw [hfound, hother] at h
      rw [eq_of_nodeAt_eq (ha.at_path hfound) (hb.at_path hother) h]

/-! ## JSON as attributes -/

theorem find?_ofJsonMap (entries : Json.Map) (name : String) :
    Assoc.find? (ofJsonMap entries) name = (Assoc.find? entries name).map ofJson := by
  induction entries with
  | nil => rfl
  | cons entry rest ih =>
    obtain ⟨other, value⟩ := entry
    rw [ofJsonMap, Assoc.find?, Assoc.find?, ih]
    by_cases h : other = name
    · rw [if_pos h, if_pos h]
      rfl
    · rw [if_neg h, if_neg h]

theorem ofJsonMap_eq_map (entries : Json.Map) :
    ofJsonMap entries = entries.map fun entry => (entry.1, ofJson entry.2) := by
  induction entries with
  | nil => rfl
  | cons entry rest ih => exact congrArg ((entry.1, ofJson entry.2) :: ·) ih

theorem keys_ofJsonMap (entries : Json.Map) : Assoc.keys (ofJsonMap entries) = Assoc.keys entries := by
  rw [ofJsonMap_eq_map, Assoc.keys, List.map_map]
  rfl

theorem sorted_ofJsonMap {entries : Json.Map} :
    Assoc.Sorted (ofJsonMap entries) ↔ Assoc.Sorted entries := by
  have hkeys : ∀ {α : Type} (m : List (String × α)), Assoc.Sorted m ↔ (Assoc.keys m).Pairwise (· < ·) :=
    fun m => List.pairwise_map.symm
  rw [hkeys, hkeys, keys_ofJsonMap]

theorem nodeAt_ofJson (value : Json) (path : List String) :
    (ofJson value).nodeAt path = (value.valueAt path).map fun found => (ofJson found).node := by
  induction path generalizing value with
  | nil =>
    rw [nodeAt_nil, Json.valueAt_nil]
    rfl
  | cons name rest ih =>
    cases value with
    | map entries =>
      rw [ofJson, nodeAt_cons, Json.valueAt_map, find?_ofJsonMap]
      cases Assoc.find? entries name with
      | none => rfl
      | some value => exact ih value
    | _ => rfl

theorem ordered_ofJson {value : Json} (h : value.Ordered) : (ofJson value).Ordered := by
  induction value using Json.tree_induction with
  | leaf value hleaf =>
    refine ordered_of_not_map fun entries he => ?_
    cases value with
    | map inner => exact hleaf inner rfl
    | _ => cases he
  | map entries ih =>
    rw [ofJson]
    refine ordered_map (sorted_ofJsonMap.2 h.sorted) fun name found hfound => ?_
    rw [find?_ofJsonMap] at hfound
    obtain ⟨value, hvalue, rfl⟩ := Option.map_eq_some_iff.1 hfound
    exact ih (name, value) (Assoc.mem_of_find? hvalue) (h.inner hvalue)

end Attribute

end KeyedRecords
