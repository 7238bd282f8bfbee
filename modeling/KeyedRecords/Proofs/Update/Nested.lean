import KeyedRecords.Proofs.Attribute.Path
import KeyedRecords.Update.Application

/-! Assignments below one map of an item act on that map alone, so the effect of an update follows the nesting of
the tree that it is made from, and so does its failure. Main statements: `changes_nested`, `foldlM_changes`,
`foldlM_fails`. -/

namespace KeyedRecords

namespace Assignment

/-- The item with an assignment made below the first so many names of its path. -/
def applyAt (depth : Nat) (action : UpdateAction) (item : Item) (assignment : Assignment) :
    Except StoreError Item :=
  assignment.applyBelow action (assignment.path.drop depth) item

/-- Whether a path goes through a name after the first so many, to something below it. -/
def Below (depth : Nat) (name : String) (assignment : Assignment) : Prop :=
  ∃ next rest, assignment.path.drop depth = name :: next :: rest

/-- Whether assignments, made on any item with the given value at a name, leave a new value there and all else as
it is. -/
def Changes (depth : Nat) (action : UpdateAction) (assignments : List Assignment) (name : String)
    (value? : Option Attribute) (new : Attribute) : Prop :=
  ∀ item, Assoc.find? item name = value? → ∃ after,
    assignments.foldlM (applyAt depth action) item = .ok after ∧ Assoc.find? after name = some new ∧
      (∀ other ≠ name, Assoc.find? after other = Assoc.find? item other) ∧
      (Assoc.Sorted item → Assoc.Sorted after)

section Nested

variable {action : UpdateAction} {depth : Nat} {name : String} {item inner : Item}

/-- A single assignment to a name changes nothing else. -/
theorem changes_last {assignment : Assignment} (hpath : assignment.path.drop depth = [name])
    {value? : Option Attribute} {new : Attribute}
    (hvalue : assignment.newValue action value? = .ok new) :
    Changes depth action [assignment] name value? new := by
  rintro item rfl
  refine ⟨Assoc.insert item name new, ?_, Assoc.find?_insert_self item name new,
    fun other hother => Assoc.find?_insert_of_ne item new hother,
    fun hsorted => Assoc.sorted_insert hsorted name new⟩
  have hstep : applyAt depth action item assignment = .ok (Assoc.insert item name new) := by
    simp only [applyAt, hpath, applyBelow, hvalue]
    rfl
  rw [List.foldlM_cons]
  exact bind_eq_ok.2 ⟨_, hstep, rfl⟩

theorem applyAt_nested {assignment : Assignment} (hbelow : assignment.Below depth name)
    (hinner : Assoc.find? item name = some (.map inner)) :
    applyAt depth action item assignment = (applyAt (depth + 1) action inner assignment).map
      fun inner => Assoc.insert item name (.map inner) := by
  obtain ⟨next, rest, hpath⟩ := hbelow
  have hrest : assignment.path.drop (depth + 1) = next :: rest := by
    rw [← List.tail_drop, hpath]
    rfl
  simp only [applyAt, hpath, hrest, applyBelow, hinner]
  cases assignment.applyBelow action (next :: rest) inner <;> rfl

/-- Assignments that all go below one map change nothing but this map. -/
theorem changes_nested {assignments : List Assignment} (hbelow : ∀ a ∈ assignments, Below depth name a)
    {changed : Item} (h : assignments.foldlM (applyAt (depth + 1) action) inner = .ok changed) :
    Changes depth action assignments name (some (.map inner)) (.map changed) := by
  intro item hinner
  induction assignments generalizing item inner with
  | nil =>
    cases h
    exact ⟨item, rfl, hinner, fun _ _ => rfl, id⟩
  | cons first rest ih =>
    rw [List.foldlM_cons] at h
    obtain ⟨between, hfirst, hrest⟩ := bind_eq_ok.1 h
    have hstep : applyAt depth action item first = .ok (Assoc.insert item name (.map between)) := by
      rw [applyAt_nested (hbelow first List.mem_cons_self) hinner, hfirst]
      rfl
    obtain ⟨after, hafter, hname, hothers, hsorted⟩ := ih
      (fun a ha => hbelow a (List.mem_cons_of_mem _ ha)) hrest _ (Assoc.find?_insert_self item name _)
    refine ⟨after, ?_, hname, ?_, ?_⟩
    · rw [List.foldlM_cons]
      exact bind_eq_ok.2 ⟨_, hstep, hafter⟩
    · intro other hother
      rw [hothers other hother, Assoc.find?_insert_of_ne _ _ hother]
    · intro hitem
      exact hsorted (Assoc.sorted_insert hitem name _)

/-- What changes one name alone leaves the names of others. -/
theorem find?_of_others {ι : Type} {rest : List ι} {target : ι → String} {name : String} {between : Item}
    (hname : name ∉ rest.map target)
    (hothers : ∀ other ≠ name, Assoc.find? between other = Assoc.find? item other) :
    ∀ entry ∈ rest, Assoc.find? between (target entry) = Assoc.find? item (target entry) := by
  intro entry hentry
  refine hothers _ fun he => hname ?_
  exact he ▸ List.mem_map_of_mem hentry

/-- Groups of assignments to different names take effect independently of each other. -/
theorem foldlM_changes {ι : Type} {entries : List ι} {target : ι → String} {group : ι → List Assignment}
    {P : ι → Attribute → Prop} (hnodup : (entries.map target).Nodup)
    (h : ∀ entry ∈ entries, ∃ new,
      Changes depth action (group entry) (target entry) (Assoc.find? item (target entry)) new ∧
        P entry new) :
    ∃ after, (entries.flatMap group).foldlM (applyAt depth action) item = .ok after ∧
      (∀ entry ∈ entries, ∃ new, Assoc.find? after (target entry) = some new ∧ P entry new) ∧
      (∀ name ∉ entries.map target, Assoc.find? after name = Assoc.find? item name) ∧
      (Assoc.Sorted item → Assoc.Sorted after) := by
  induction entries generalizing item with
  | nil => exact ⟨item, rfl, fun _ hmem => absurd hmem List.not_mem_nil, fun _ _ => rfl, id⟩
  | cons first rest ih =>
    have ⟨hfirst, hrest⟩ := List.nodup_cons.1 hnodup
    obtain ⟨new, hchanges, hnew⟩ := h first List.mem_cons_self
    obtain ⟨between, hgroup, hname, hothers, hsorted⟩ := hchanges item rfl
    have hsame := find?_of_others hfirst hothers
    obtain ⟨after, hafter, hentries, hkept, hordered⟩ := @ih between hrest fun entry hentry => by
      rw [hsame entry hentry]
      exact h entry (List.mem_cons_of_mem _ hentry)
    refine ⟨after, ?_, ?_, ?_, hordered ∘ hsorted⟩
    · rw [List.flatMap_cons, List.foldlM_append]
      exact bind_eq_ok.2 ⟨between, hgroup, hafter⟩
    · intro entry hentry
      rcases List.mem_cons.1 hentry with rfl | hentry
      · exact ⟨new, (hkept _ hfirst).trans hname, hnew⟩
      · exact hentries entry hentry
    · intro name hname
      have hne : name ≠ target first := fun he => hname (he ▸ List.mem_cons_self)
      rw [hkept name fun hmem => hname (List.mem_cons_of_mem _ hmem), hothers name hne]

/-! ## Failing assignments -/

/-- Whether assignments, made on any item with the given value at a name, fail in this way. -/
def Fails (depth : Nat) (action : UpdateAction) (assignments : List Assignment) (name : String)
    (value? : Option Attribute) (e : StoreError) : Prop :=
  ∀ item, Assoc.find? item name = value? → assignments.foldlM (applyAt depth action) item = .error e

theorem fails_last {assignment : Assignment} (hpath : assignment.path.drop depth = [name])
    {value? : Option Attribute} {e : StoreError} (hvalue : assignment.newValue action value? = .error e) :
    Fails depth action [assignment] name value? e := by
  rintro item rfl
  have hstep : applyAt depth action item assignment = .error e := by
    simp only [applyAt, hpath, applyBelow, hvalue]
    rfl
  rw [List.foldlM_cons, hstep]
  rfl

/-- Assignments that all go below one map fail as they do in this map. -/
theorem fails_nested {assignments : List Assignment} (hbelow : ∀ a ∈ assignments, Below depth name a)
    {e : StoreError} (h : assignments.foldlM (applyAt (depth + 1) action) inner = .error e) :
    Fails depth action assignments name (some (.map inner)) e := by
  intro item hinner
  induction assignments generalizing item inner with
  | nil => cases h
  | cons first rest ih =>
    have hstep : applyAt depth action item first = _ := applyAt_nested (hbelow first List.mem_cons_self) hinner
    rw [List.foldlM_cons] at h
    rw [List.foldlM_cons, hstep]
    cases hfirst : applyAt (depth + 1) action inner first with
    | error failure =>
      rw [hfirst] at h
      cases h
      rfl
    | ok between =>
      rw [hfirst] at h
      exact ih (fun a ha => hbelow a (List.mem_cons_of_mem _ ha)) h _ (Assoc.find?_insert_self item name _)

/-- An assignment that goes below something that is no map fails. -/
theorem fails_below {first : Assignment} {rest : List Assignment} (hbelow : first.Below depth name)
    {value? : Option Attribute} (hvalue : ∀ inner, value? ≠ some (.map inner)) :
    Fails depth action (first :: rest) name value?
      (.validation s!"The document path '{first.pathText}' is invalid for update") := by
  rintro item rfl
  obtain ⟨next, below, hpath⟩ := hbelow
  have hstep : applyAt depth action item first =
      .error (.validation s!"The document path '{first.pathText}' is invalid for update") := by
    simp only [applyAt, hpath, applyBelow]
  rw [List.foldlM_cons, hstep]
  rfl

/-- Groups of assignments to different names fail if one of them does. -/
theorem foldlM_fails {ι : Type} {entries : List ι} {target : ι → String} {group : ι → List Assignment}
    {P : StoreError → Prop} (hnodup : (entries.map target).Nodup)
    (h : ∀ entry ∈ entries,
      (∃ new, Changes depth action (group entry) (target entry) (Assoc.find? item (target entry)) new) ∨
        ∃ e, Fails depth action (group entry) (target entry) (Assoc.find? item (target entry)) e ∧ P e)
    (hfails : ∃ entry ∈ entries, ∃ e,
      Fails depth action (group entry) (target entry) (Assoc.find? item (target entry)) e) :
    ∃ e, (entries.flatMap group).foldlM (applyAt depth action) item = .error e ∧ P e := by
  induction entries generalizing item with
  | nil =>
    obtain ⟨entry, hentry, -⟩ := hfails
    exact absurd hentry List.not_mem_nil
  | cons first rest ih =>
    have ⟨hfirst, hrest⟩ := List.nodup_cons.1 hnodup
    rw [List.flatMap_cons, List.foldlM_append]
    rcases h first List.mem_cons_self with ⟨new, hchanges⟩ | ⟨e, hfailure, he⟩
    · obtain ⟨between, hgroup, -, hothers, -⟩ := hchanges item rfl
      have hsame := find?_of_others hfirst hothers
      obtain ⟨entry, hentry, e, hfailure⟩ := hfails
      have hlater : entry ∈ rest := by
        refine (List.mem_cons.1 hentry).resolve_left ?_
        rintro rfl
        cases (hfailure item rfl).symm.trans hgroup
      rw [hgroup]
      refine @ih between hrest (fun other hother => ?_) ⟨entry, hlater, e, ?_⟩
      · rw [hsame other hother]
        exact h other (List.mem_cons_of_mem _ hother)
      · rw [hsame entry hlater]
        exact hfailure
    · rw [hfailure item rfl]
      exact ⟨e, rfl, he⟩

end Nested

end Assignment

/-! ## Where assignments lead -/

mutual

theorem path_of_mem_addAt {path : List String} {a : Assignment} : (value : Attribute) →
    a ∈ addAt path value → path <+: a.path
  | .map entries, h => by
    obtain ⟨name, hpath⟩ := path_of_mem_addEntries entries h
    exact (List.prefix_append path [name]).trans hpath
  | .string _, h | .number _, h | .boolean _, h | .null, h | .list _, h => by
    cases List.mem_singleton.1 h
    exact List.prefix_rfl

theorem path_of_mem_addEntries {parent : List String} {a : Assignment} : (entries : Item) →
    a ∈ addEntries parent entries → ∃ name, parent ++ [name] <+: a.path
  | [], h => absurd h List.not_mem_nil
  | (name, value) :: rest, h => by
    rcases List.mem_append.1 h with h | h
    · exact ⟨name, path_of_mem_addAt value h⟩
    · exact path_of_mem_addEntries rest h

end

mutual

theorem path_of_mem_setAt {path : List String} {whole : Bool} {a : Assignment} : (value : Attribute) →
    a ∈ setAt path whole value → path <+: a.path
  | .map entries, h => by
    rw [setAt] at h
    split at h
    · cases List.mem_singleton.1 h
      exact List.prefix_rfl
    · obtain ⟨name, hpath⟩ := path_of_mem_setEntries entries h
      exact (List.prefix_append path [name]).trans hpath
  | .string _, h | .number _, h | .boolean _, h | .null, h | .list _, h => by
    cases List.mem_singleton.1 h
    exact List.prefix_rfl

theorem path_of_mem_setEntries {parent : List String} {a : Assignment} : (entries : Item) →
    a ∈ setEntries parent entries → ∃ name, parent ++ [name] <+: a.path
  | [], h => absurd h List.not_mem_nil
  | (name, value) :: rest, h => by
    rcases List.mem_append.1 h with h | h
    · exact ⟨(unmark name).1, path_of_mem_setAt value h⟩
    · exact path_of_mem_setEntries rest h

end

/-- What is assigned below a longer path goes below its last name. -/
theorem Assignment.below_of_prefix {parent : List String} {name next : String} {a : Assignment}
    (h : parent ++ [name] ++ [next] <+: a.path) : a.Below parent.length name := by
  obtain ⟨rest, hrest⟩ := h
  refine ⟨next, rest, ?_⟩
  rw [← hrest]
  simp

theorem below_of_mem_setEntries {parent : List String} {name : String} {entries : Item} {a : Assignment}
    (h : a ∈ setEntries (parent ++ [name]) entries) : a.Below parent.length name := by
  obtain ⟨next, hprefix⟩ := path_of_mem_setEntries entries h
  exact Assignment.below_of_prefix hprefix

theorem below_of_mem_addEntries {parent : List String} {name : String} {entries : Item} {a : Assignment}
    (h : a ∈ addEntries (parent ++ [name]) entries) : a.Below parent.length name := by
  obtain ⟨next, hprefix⟩ := path_of_mem_addEntries entries h
  exact Assignment.below_of_prefix hprefix

/-! ## What an update leaves alone -/

theorem Assignment.apply_others {action : UpdateAction} {assignment : Assignment} {item after : Item}
    (h : assignment.apply action item = .ok after) {name : String} (hname : assignment.path.head? ≠ some name) :
    Assoc.find? after name = Assoc.find? item name := by
  unfold apply at h
  rcases hpath : assignment.path with _ | ⟨first, _ | ⟨second, rest⟩⟩
  · rw [hpath] at h
    cases h
  · rw [hpath] at h hname
    obtain ⟨value, -, h⟩ := bind_eq_ok.1 h
    cases h
    exact Assoc.find?_insert_of_ne item value fun he => hname (congrArg some he.symm)
  · rw [hpath] at h hname
    simp only [applyBelow] at h
    split at h
    · obtain ⟨inner, -, h⟩ := bind_eq_ok.1 h
      cases h
      exact Assoc.find?_insert_of_ne item (.map inner) fun he => hname (congrArg some he.symm)
    · cases h

/-- An update leaves alone what none of its paths begins with. -/
theorem Update.apply_others {update : Update} {item after : Item} (h : update.apply item = .ok after)
    {name : String} (hname : ∀ a ∈ update.assignments, a.path.head? ≠ some name) :
    Assoc.find? after name = Assoc.find? item name := by
  unfold apply at h
  generalize update.assignments = assignments at h hname
  induction assignments generalizing item with
  | nil =>
    cases h
    rfl
  | cons first rest ih =>
    rw [List.foldlM_cons] at h
    obtain ⟨between, hfirst, hrest⟩ := bind_eq_ok.1 h
    rw [ih hrest fun a ha => hname a (List.mem_cons_of_mem _ ha)]
    exact Assignment.apply_others hfirst (hname first List.mem_cons_self)

end KeyedRecords
