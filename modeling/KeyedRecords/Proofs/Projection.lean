import KeyedRecords.Projection
import KeyedRecords.Proofs.Attribute.Path
import KeyedRecords.Proofs.Text.Split

/-! A projection shows of an item what is at or below the requested paths, and the maps on the way to them. So the set
of the paths tells it. Main statements: `nodeAt_project`, `project_set_of_paths`. -/

namespace KeyedRecords

open Attribute (map)

/-! ## One path -/

/-- Whether a path of an item is asked for with another one: it is at or below that, or a map on the way to it. -/
def Asked (item : Item) (requested path : List String) : Prop :=
  requested <+: path ∨ path <+: requested ∧ (map item).nodeAt path = some .map

instance (item : Item) (requested path : List String) : Decidable (Asked item requested path) :=
  inferInstanceAs (Decidable (_ ∨ _ ∧ _))

theorem asked_nil (item : Item) (requested : List String) : Asked item requested [] :=
  Or.inr ⟨List.nil_prefix, Attribute.nodeAt_nil _⟩

/-- Below a map, what is asked for is what is asked for in it. -/
theorem asked_cons {item inner : Item} {name : String} (h : Assoc.find? item name = some (map inner))
    (requested path : List String) : Asked item (name :: requested) (name :: path) ↔ Asked inner requested path := by
  simp [Asked, Attribute.nodeAt_cons, h]

theorem not_asked_cons {item : Item} {name other : String} (h : other ≠ name) (requested path : List String) :
    ¬ Asked item (name :: requested) (other :: path) := by
  simp [Asked, h, Ne.symm h]

/-- Nothing stands below a value that is no map, so nothing is asked for there. -/
theorem nodeAt_of_leaf {item : Item} {name : String} {value : Attribute} (h : Assoc.find? item name = some value)
    (hleaf : ∀ entries, value ≠ map entries) {requested : List String} (hne : requested ≠ []) {path : List String}
    (hasked : Asked item (name :: requested) (name :: path)) : value.nodeAt path = none := by
  cases path with
  | nil =>
    rcases hasked with hbelow | ⟨-, hmap⟩
    · simp [hne] at hbelow
    · rw [Attribute.nodeAt_cons, h] at hmap
      have hnode := Option.some.inj ((Attribute.nodeAt_nil value).symm.trans hmap)
      obtain ⟨entries, he⟩ := Attribute.node_eq_map_iff.1 hnode
      exact absurd he (hleaf entries)
  | cons next below => exact Attribute.nodeAt_cons_of_not_map hleaf next below

/-- Whether an item holds nothing but what another one has at the same paths. -/
def PartOf (part whole : Item) : Prop :=
  ∀ path node, (map part).nodeAt path = some node → (map whole).nodeAt path = some node

theorem partOf_nil (whole : Item) : PartOf [] whole := by
  intro path node hnode
  cases path with
  | nil => exact hnode
  | cons name rest => cases hnode

theorem PartOf.inner {part whole : Item} (h : PartOf part whole) {name : String} {out inner : Item}
    (hout : Assoc.find? part name = some (map out)) (hinner : Assoc.find? whole name = some (map inner)) :
    PartOf out inner := by
  intro path node hnode
  have hwhole := h (name :: path) node
  rw [Attribute.nodeAt_cons, Attribute.nodeAt_cons, hout, hinner] at hwhole
  exact hwhole hnode

theorem PartOf.exists_map {part whole : Item} (h : PartOf part whole) {name : String} {inner : Item} {value : Attribute}
    (hinner : Assoc.find? whole name = some (map inner)) (hvalue : Assoc.find? part name = some value) :
    ∃ out, value = map out := by
  have hnode := h [name] value.node
  rw [Attribute.nodeAt_cons, Attribute.nodeAt_cons, hinner, hvalue] at hnode
  simp only [Option.bind_some, Attribute.nodeAt_nil, Option.some.injEq, forall_const] at hnode
  exact Attribute.node_eq_map_iff.1 hnode.symm

theorem PartOf.eq_none {part whole : Item} (h : PartOf part whole) {path : List String}
    (hwhole : (map whole).nodeAt path = none) : (map part).nodeAt path = none := by
  cases hnode : (map part).nodeAt path with
  | none => rfl
  | some node =>
    rw [h path node hnode] at hwhole
    cases hwhole

/-- Where nothing stands that is asked for, there is nothing to copy. -/
theorem PartOf.nodeAt_eq_ite {part whole : Item} (h : PartOf part whole) {requested path : List String}
    (hnone : Asked whole requested path → (map whole).nodeAt path = none) :
    (map part).nodeAt path =
      if Asked whole requested path then (map whole).nodeAt path else (map part).nodeAt path := by
  split
  · rename_i hasked
    rw [hnone hasked, h.eq_none (hnone hasked)]
  · rfl

/-- What is copied into the map of a name is what is asked for below the name. -/
theorem nodeAt_entered {source target inner out after : Item} {name : String} {requested : List String}
    (hinner : Assoc.find? source name = some (map inner))
    (hout : ∀ next below, (map target).nodeAt (name :: next :: below) = (map out).nodeAt (next :: below))
    (hafter : ∀ next below, (map after).nodeAt (next :: below) =
      if Asked inner requested (next :: below) then (map inner).nodeAt (next :: below)
      else (map out).nodeAt (next :: below)) (other : String) (path : List String) :
    (map (Assoc.insert target name (map after))).nodeAt (other :: path) =
      if Asked source (name :: requested) (other :: path) then (map source).nodeAt (other :: path)
      else (map target).nodeAt (other :: path) := by
  rw [Attribute.nodeAt_insert]
  by_cases he : other = name
  · subst he
    simp only [if_true, asked_cons hinner, Attribute.nodeAt_cons source, hinner, Option.bind_some]
    cases path with
    | nil => rw [if_pos (asked_nil inner requested), Attribute.nodeAt_nil, Attribute.nodeAt_nil]; rfl
    | cons next below => rw [hafter, hout]
  · rw [if_neg he, if_neg (not_asked_cons he _ _)]

/-- A copied path shows what is asked for with it, and leaves the rest as it was. -/
theorem nodeAt_copyPath {source target : Item} (hpart : PartOf target source) {requested : List String}
    (hne : requested ≠ []) (path : List String) :
    (map (copyPath source target requested)).nodeAt path =
      if Asked source requested path then (map source).nodeAt path else (map target).nodeAt path := by
  cases path with
  | nil =>
    rw [if_pos (asked_nil source requested), Attribute.nodeAt_nil, Attribute.nodeAt_nil]
    rfl
  | cons other path =>
    fun_induction copyPath source target requested generalizing other path with
    | case1 => exact absurd rfl hne
    | case2 source target name value hvalue =>
      rw [Attribute.nodeAt_insert]
      by_cases he : other = name
      · subst he
        have hasked : Asked source [other] (other :: path) := Or.inl ⟨path, rfl⟩
        rw [if_pos rfl, if_pos hasked, Attribute.nodeAt_cons, hvalue]
        rfl
      · rw [if_neg he, if_neg (not_asked_cons he _ _)]
    | case3 source target name hvalue =>
      refine hpart.nodeAt_eq_ite fun hasked => ?_
      by_cases he : other = name
      · rw [he, Attribute.nodeAt_cons, hvalue]
        rfl
      · exact absurd hasked (not_asked_cons he _ _)
    | case4 source target name rest hrest inner hout hinner ih =>
      refine nodeAt_entered hinner (fun next below => ?_) (ih (partOf_nil inner) hrest) other path
      rw [Attribute.nodeAt_cons, hout]
      rfl
    | case5 source target name rest hrest inner out hout hinner ih =>
      refine nodeAt_entered hinner (fun next below => ?_) (ih (hpart.inner hout hinner) hrest) other path
      rw [Attribute.nodeAt_cons, hout]
      rfl
    | case6 source target name rest hrest hfresh hentered =>
      refine hpart.nodeAt_eq_ite fun hasked => ?_
      by_cases he : other = name
      · subst he
        rw [Attribute.nodeAt_cons]
        cases hvalue : Assoc.find? source other with
        | none => rfl
        | some value =>
          -- A map would have been entered: what the target has at its name is a map as well.
          have hleaf : ∀ entries, value ≠ map entries := by
            rintro inner rfl
            cases hout : Assoc.find? target other with
            | none => exact hfresh inner hvalue hout
            | some found =>
              obtain ⟨out, rfl⟩ := hpart.exists_map hvalue hout
              exact hentered inner out hvalue hout
          exact nodeAt_of_leaf hvalue hleaf hrest hasked
      · exact absurd hasked (not_asked_cons he _ _)

theorem PartOf.copyPath {source target : Item} (h : PartOf target source) {requested : List String}
    (hne : requested ≠ []) : PartOf (copyPath source target requested) source := by
  intro path node hnode
  rw [nodeAt_copyPath h hne] at hnode
  split at hnode
  · exact hnode
  · exact h path node hnode

theorem ordered_copyPath {source target : Item} (hsource : (map source).Ordered) (htarget : (map target).Ordered)
    (requested : List String) : (map (copyPath source target requested)).Ordered := by
  fun_induction copyPath source target requested with
  | case1 => exact htarget
  | case2 source target name value hvalue => exact htarget.insert name (hsource.inner hvalue)
  | case3 => exact htarget
  | case4 source target name rest hrest inner hout hinner ih =>
    exact htarget.insert name (ih (hsource.inner hinner) Attribute.ordered_empty)
  | case5 source target name rest hrest inner out hout hinner ih =>
    exact htarget.insert name (ih (hsource.inner hinner) (htarget.inner hout))
  | case6 => exact htarget

/-! ## All paths -/

/-- Whether one of the requested paths asks for a path of an item. -/
def Shown (item : Item) (paths : List String) (path : List String) : Prop :=
  ∃ requested ∈ paths, Asked item (Text.dotted requested) path

instance (item : Item) (paths path : List String) : Decidable (Shown item paths path) :=
  inferInstanceAs (Decidable (∃ requested ∈ paths, _))

theorem Shown.mono {item : Item} {paths others path : List String} (hsub : paths ⊆ others)
    (h : Shown item paths path) : Shown item others path := by
  obtain ⟨requested, hrequested, hasked⟩ := h
  exact ⟨requested, hsub hrequested, hasked⟩

theorem shown_cons {item : Item} {requested : String} {paths path : List String} :
    Shown item (requested :: paths) path ↔ Asked item (Text.dotted requested) path ∨ Shown item paths path := by
  simp [Shown]

theorem nodeAt_foldl_copyPath {item : Item} (paths : List String) {out : Item} (hpart : PartOf out item)
    (path : List String) :
    (map (paths.foldl (fun out path => copyPath item out (Text.dotted path)) out)).nodeAt path =
      if Shown item paths path then (map item).nodeAt path else (map out).nodeAt path := by
  induction paths generalizing out with
  | nil =>
    rw [if_neg fun h => by simp [Shown] at h]
    rfl
  | cons requested paths ih =>
    have hne := Text.dotted_ne_nil requested
    rw [List.foldl_cons, ih (hpart.copyPath hne), nodeAt_copyPath hpart hne]
    by_cases hasked : Asked item (Text.dotted requested) path
    · rw [if_pos hasked, ite_self, if_pos (shown_cons.2 (Or.inl hasked))]
    · simp only [shown_cons, hasked, if_false, false_or]

/-- A projection has at each path that is shown what the item has there, and nothing else. -/
theorem nodeAt_project (item : Item) (paths path : List String) :
    (map (project item paths)).nodeAt path =
      if path = [] ∨ Shown item paths path then (map item).nodeAt path else none := by
  rw [project, nodeAt_foldl_copyPath paths (partOf_nil item)]
  cases path with
  | nil => simp [Attribute.nodeAt_nil, Attribute.node]
  | cons name path =>
    have hempty : (map []).nodeAt (name :: path) = none := rfl
    simp only [hempty, List.cons_ne_nil, false_or]

theorem partOf_project (item : Item) (paths : List String) : PartOf (project item paths) item := by
  intro path node hnode
  rw [nodeAt_project] at hnode
  split at hnode
  · exact hnode
  · cases hnode

theorem ordered_project {item : Item} (h : (map item).Ordered) (paths : List String) :
    (map (project item paths)).Ordered := by
  have hfold : ∀ out, (map out).Ordered →
      (map (paths.foldl (fun out path => copyPath item out (Text.dotted path)) out)).Ordered := by
    induction paths with
    | nil => exact fun out hout => hout
    | cons requested paths ih => exact fun out hout => ih _ (ordered_copyPath h hout _)
  exact hfold [] Attribute.ordered_empty

/-- Projections of items in order are equal if they show the same paths. -/
theorem project_congr {item : Item} (h : (map item).Ordered) {paths others : List String}
    (hshown : ∀ path, Shown item paths path ↔ Shown item others path) : project item paths = project item others := by
  refine Attribute.map.inj (Attribute.eq_of_nodeAt_eq (ordered_project h paths) (ordered_project h others) ?_)
  intro path
  simp only [nodeAt_project, hshown]

/-- A requested path leads to the same value in the projection as in the item. -/
theorem valueAt_project {item : Item} (h : (map item).Ordered) {paths : List String} {requested : String}
    (hrequested : requested ∈ paths) :
    (map (project item paths)).valueAt (Text.dotted requested) = (map item).valueAt (Text.dotted requested) := by
  refine Attribute.valueAt_eq_of_nodeAt_eq (ordered_project h paths) h fun rest => ?_
  rw [nodeAt_project, if_pos (Or.inr ⟨requested, hrequested, Or.inl ⟨rest, rfl⟩⟩)]

/-- A value in the projection that is no map is at or below a requested path, and the item has it there. -/
theorem value_of_project {item : Item} {paths path : List String} {value : Attribute}
    (hvalue : (map (project item paths)).valueAt path = some value) (hleaf : ∀ entries, value ≠ map entries) :
    (∃ requested ∈ paths, Text.dotted requested <+: path) ∧ (map item).valueAt path = some value := by
  have hnode : (map (project item paths)).nodeAt path = some (.leaf value) := by
    rw [Attribute.nodeAt, hvalue, Option.map_some, Attribute.node_eq_leaf_iff.2 ⟨rfl, hleaf⟩]
  have hitem := partOf_project item paths path _ hnode
  constructor
  · rw [nodeAt_project] at hnode
    split at hnode
    · rename_i hshown
      rcases hshown with rfl | ⟨requested, hrequested, hbelow | ⟨-, hmap⟩⟩
      · cases hitem
      · exact ⟨requested, hrequested, hbelow⟩
      · rw [hitem] at hmap
        cases hmap
    · cases hnode
  · obtain ⟨found, hfound, hnode⟩ := Option.map_eq_some_iff.1 hitem
    rw [hfound, (Attribute.node_eq_leaf_iff.1 hnode).1]

/-- What is shown of a projection with the same paths is what is shown of the item. -/
theorem shown_project {item : Item} {paths path : List String} :
    Shown (project item paths) paths path ↔ Shown item paths path := by
  constructor
  · rintro ⟨requested, hrequested, hbelow | ⟨hfront, hmap⟩⟩
    · exact ⟨requested, hrequested, Or.inl hbelow⟩
    · exact ⟨requested, hrequested, Or.inr ⟨hfront, partOf_project item paths path _ hmap⟩⟩
  · rintro ⟨requested, hrequested, hbelow | ⟨hfront, hmap⟩⟩
    · exact ⟨requested, hrequested, Or.inl hbelow⟩
    · refine ⟨requested, hrequested, Or.inr ⟨hfront, ?_⟩⟩
      rw [nodeAt_project, if_pos (Or.inr ⟨requested, hrequested, Or.inr ⟨hfront, hmap⟩⟩), hmap]

theorem project_project {item : Item} (h : (map item).Ordered) (paths : List String) :
    project (project item paths) paths = project item paths := by
  have hsorted := ordered_project h paths
  refine Attribute.map.inj (Attribute.eq_of_nodeAt_eq (ordered_project hsorted paths) hsorted fun path => ?_)
  rw [nodeAt_project (project item paths), nodeAt_project item]
  simp only [shown_project]
  split <;> rfl

/-- More paths show more. -/
theorem project_mono {item : Item} {paths others : List String} (h : paths ⊆ others) :
    PartOf (project item paths) (project item others) := by
  intro path node hnode
  rw [nodeAt_project] at hnode
  split at hnode
  · rename_i hshown
    rw [nodeAt_project, if_pos (hshown.imp_right (Shown.mono h)), hnode]
  · cases hnode

/-- A projection is told by the set of its paths: each leads to what it leads to in the item, every value that is no map
is at or below one of them and as the item has it, their order and repetition do not matter, projecting once more
changes nothing, and with more paths all that was there stays. -/
theorem project_set_of_paths {item : Item} (hordered : (map item).Ordered) (paths : List String) :
    (∀ requested ∈ paths,
      (map (project item paths)).valueAt (Text.dotted requested) = (map item).valueAt (Text.dotted requested)) ∧
    (∀ path value, (map (project item paths)).valueAt path = some value → (∀ entries, value ≠ map entries) →
      (∃ requested ∈ paths, Text.dotted requested <+: path) ∧ (map item).valueAt path = some value) ∧
    (∀ others, (∀ requested, requested ∈ others ↔ requested ∈ paths) → project item others = project item paths) ∧
    project (project item paths) paths = project item paths ∧
    ∀ others, paths ⊆ others → ∀ path node, (map (project item paths)).nodeAt path = some node →
      (map (project item others)).nodeAt path = some node := by
  refine ⟨fun requested => valueAt_project hordered, fun path value => value_of_project, fun others hsame => ?_,
    project_project hordered paths, fun others => project_mono⟩
  refine project_congr hordered fun path => ⟨Shown.mono fun requested => (hsame requested).1, ?_⟩
  exact Shown.mono fun requested => (hsame requested).2

def annsName : Item := Assoc.insert (Assoc.insert [] "first" (.string "Ann")) "last" (.string "Lee")

def annsItem : Item :=
  Assoc.insert (Assoc.insert [] "data" (map (Assoc.insert (Assoc.insert [] "age" (.number "3")) "name" (map annsName))))
    "tags" (.list [.null])

theorem annsItem_ordered : (map annsItem).Ordered := by
  have hleaf : ∀ value, (∀ entries, value ≠ map entries) → value.Ordered :=
    fun value h => Attribute.ordered_of_not_map h
  have hname : (map annsName).Ordered :=
    (Attribute.ordered_empty.insert "first" (hleaf (.string "Ann") nofun)).insert "last" (hleaf (.string "Lee") nofun)
  have hdata := (Attribute.ordered_empty.insert "age" (hleaf (.number "3") nofun)).insert "name" hname
  exact (Attribute.ordered_empty.insert "data" hdata).insert "tags" (hleaf (.list [.null]) nofun)

/-- Paths that overlap, in two orders, and one that leads through a number. -/
theorem project_set_of_paths_ann :
    (map annsItem).Ordered ∧
    project annsItem ["data.name.first", "data.name", "data.age.unit"] = [("data", map [("name", map annsName)])] ∧
    (map (project annsItem ["data.name.first", "data.name", "data.age.unit"])).valueAt ["data", "name"] =
      some (map annsName) ∧
    project annsItem ["data.name", "data.age.unit", "data.name.first", "data.name"] =
      project annsItem ["data.name.first", "data.name", "data.age.unit"] := by
  obtain ⟨hvalue, -, hset, -, -⟩ :=
    project_set_of_paths annsItem_ordered ["data.name.first", "data.name", "data.age.unit"]
  refine ⟨annsItem_ordered, by decide +kernel, ?_, hset _ fun requested => ?_⟩
  · exact hvalue "data.name" (by decide)
  · simp only [List.mem_cons, List.not_mem_nil, or_false]
    grind

end KeyedRecords
