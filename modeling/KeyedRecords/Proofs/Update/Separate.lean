import KeyedRecords.Proofs.Counters.Increment
import KeyedRecords.Proofs.Counters.Merge
import KeyedRecords.Proofs.Records.Operations
import KeyedRecords.Proofs.Records.Simulation

/-! The places that updates lead to. No path of an update that is made from a tree begins another one, so its
assignments can be made in any order: two of them commute, and what fails in one order fails in every other. Main
statement: `Update.order_immaterial`. -/

namespace KeyedRecords

/-! ## Paths -/

/-- Whether the paths of two assignments lead to different places, neither of them within the other. -/
def Assignment.Apart (a b : Assignment) : Prop := ¬ a.path <+: b.path ∧ ¬ b.path <+: a.path

/-- Whether all paths of an update lead somewhere, and each to a place apart from the others. -/
structure Update.Separate (update : Update) : Prop where
  nonempty : ∀ a ∈ update.assignments, a.path ≠ []
  apart : update.assignments.Pairwise Assignment.Apart

/-- Whether names stand for different names once their marks are taken off, in every map of a tree that setting the
tree enters. -/
inductive NamedApart : Item → Prop
  | intro {entries : Item} (names : (entries.map fun entry => (unmark entry.1).1).Nodup)
      (entered : ∀ entry ∈ entries, (unmark entry.1).2 = false → ∀ inner, entry.2 = .map inner →
        NamedApart inner) : NamedApart entries

namespace Assignment

theorem Apart.symm {a b : Assignment} (h : a.Apart b) : b.Apart a := ⟨h.2, h.1⟩

/-- Paths that part at a name lead to different places. -/
theorem apart_of_names {parent : List String} {name other : String} (hne : name ≠ other) {a b : Assignment}
    (ha : parent ++ [name] <+: a.path) (hb : parent ++ [other] <+: b.path) : a.Apart b := by
  have hparted : ∀ path : List String, parent ++ [name] <+: path → ¬ parent ++ [other] <+: path := by
    intro path hname hother
    have hsame : parent ++ [name] <+: parent ++ [other] :=
      List.prefix_of_prefix_length_le hname hother (by simp)
    exact hne (by simpa using hsame)
  exact ⟨fun h => hparted _ (ha.trans h) hb, fun h => hparted _ ha (hb.trans h)⟩

/-- Groups of assignments below different names are apart from each other. -/
theorem pairwise_flatMap_apart {ι : Type} {entries : List ι} {parent : List String} {target : ι → String}
    {group : ι → List Assignment} (hnames : (entries.map target).Nodup)
    (hgroup : ∀ entry ∈ entries, (group entry).Pairwise Apart)
    (hpath : ∀ entry ∈ entries, ∀ a ∈ group entry, parent ++ [target entry] <+: a.path) :
    (entries.flatMap group).Pairwise Apart := by
  rw [List.pairwise_flatMap]
  refine ⟨hgroup, (List.pairwise_map.1 hnames).imp_of_mem ?_⟩
  intro entry other hentry hother hne a ha b hb
  exact apart_of_names hne (hpath entry hentry a ha) (hpath other hother b hb)

end Assignment

/-- What is set at a path is in one place, unless it is a map that is entered. -/
theorem setAt_apart {value : Attribute} {whole : Bool} {path : List String} (h : whole = false → ∀ inner,
    value = .map inner → (setEntries path inner).Pairwise Assignment.Apart) :
    (setAt path whole value).Pairwise Assignment.Apart := by
  cases value with
  | map inner =>
    rw [setAt]
    split
    · exact List.pairwise_singleton _ _
    · rename_i hentered
      exact h (by cases whole <;> simp_all) inner rfl
  | _ => exact List.pairwise_singleton _ _

theorem setEntries_apart {entries : Item} (h : NamedApart entries) (parent : List String) :
    (setEntries parent entries).Pairwise Assignment.Apart := by
  induction h generalizing parent with
  | intro names _ ih =>
    rw [setEntries_eq_flatMap]
    refine Assignment.pairwise_flatMap_apart names (fun entry hentry => ?_) fun entry _ a ha =>
      path_of_mem_setAt entry.2 ha
    exact setAt_apart fun hwhole inner hinner => ih entry hentry hwhole inner hinner _

theorem addAt_apart {value : Attribute} (h : value.Ordered) (path : List String) :
    (addAt path value).Pairwise Assignment.Apart := by
  induction value using Attribute.tree_induction generalizing path with
  | leaf value hleaf =>
    cases value with
    | map entries => exact absurd rfl (hleaf entries)
    | _ => exact List.pairwise_singleton _ _
  | map entries ih =>
    rw [addAt, addEntries_eq_flatMap]
    refine Assignment.pairwise_flatMap_apart h.sorted.nodup (fun entry hentry => ?_) fun entry _ a ha =>
      path_of_mem_addAt entry.2 ha
    have hfound := Assoc.find?_of_mem h.sorted.nodup hentry
    exact ih entry.1 entry.2 hfound (h.inner hfound) _

namespace Update

theorem separate_set {item : Item} (h : NamedApart item) : (Update.set item).Separate where
  nonempty a ha := by
    obtain ⟨name, hpath⟩ := path_of_mem_setEntries item ha
    rintro hnil
    simp [hnil] at hpath
  apart := setEntries_apart h []

theorem separate_add {item : Item} (h : (Attribute.map item).Ordered) : (Update.add item).Separate where
  nonempty a ha := by
    obtain ⟨name, hpath⟩ := path_of_mem_addEntries item ha
    rintro hnil
    simp [hnil] at hpath
  apart := addAt_apart h []

/-- Separate assignments go to different paths. -/
theorem Separate.nodup {update : Update} (h : update.Separate) : (update.assignments.map (·.path)).Nodup := by
  refine List.pairwise_map.2 (h.apart.imp ?_)
  intro a b hapart he
  exact hapart.1 (he ▸ List.prefix_rfl)

end Update

/-! ## Assignments that commute -/

namespace Assignment

variable {action : UpdateAction} {a b : Assignment}

/-- The ways to make an assignment at a name, given the rest of its path and what is there, each with what it leaves. -/
inductive Leaves (action : UpdateAction) (a : Assignment) (current? : Option Attribute) : List String → Attribute → Prop
  | last {new : Attribute} (h : a.newValue action current? = .ok new) : Leaves action a current? [] new
  | below {inner changed : Item} {next : String} {rest : List String} (hinner : current? = some (.map inner))
      (h : a.applyBelow action (next :: rest) inner = .ok changed) :
      Leaves action a current? (next :: rest) (.map changed)

theorem applyBelow_eq_ok_iff {path : List String} {item after : Item} :
    a.applyBelow action path item = .ok after ↔ ∃ name rest new, path = name :: rest ∧
      Leaves action a (Assoc.find? item name) rest new ∧ after = Assoc.insert item name new := by
  rcases path with _ | ⟨name, _ | ⟨next, rest⟩⟩
  · simp [applyBelow]
  · rw [applyBelow, bind_eq_ok]
    constructor
    · rintro ⟨new, hnew, h⟩
      cases h
      exact ⟨name, [], new, rfl, .last hnew, rfl⟩
    · rintro ⟨_, _, new, hpath, hleaves, rfl⟩
      cases hpath
      cases hleaves with
      | last hnew => exact ⟨new, hnew, rfl⟩
  · constructor
    · intro h
      simp only [applyBelow] at h
      split at h
      · rename_i inner hinner
        obtain ⟨changed, hchanged, h⟩ := bind_eq_ok.1 h
        cases h
        exact ⟨name, next :: rest, _, rfl, .below hinner hchanged, rfl⟩
      · cases h
    · rintro ⟨_, _, new, hpath, hleaves, rfl⟩
      cases hpath
      cases hleaves with
      | below hinner hchanged =>
        simp only [applyBelow, hinner]
        exact bind_eq_ok.2 ⟨_, hchanged, rfl⟩

/-- Whether the maps on a path through an item are in order. -/
def SortedAlong : List String → Item → Prop
  | [], item => Assoc.Sorted item
  | name :: rest, item => Assoc.Sorted item ∧
      ∀ inner, Assoc.find? item name = some (.map inner) → SortedAlong rest inner

theorem sortedAlong_of_ordered {item : Item} (h : (Attribute.map item).Ordered) (path : List String) :
    SortedAlong path item := by
  induction path generalizing item with
  | nil => exact h.sorted
  | cons name rest ih => exact ⟨h.sorted, fun inner hinner => ih (h.inner hinner)⟩

theorem SortedAlong.sorted {path : List String} {item : Item} (h : SortedAlong path item) : Assoc.Sorted item := by
  cases path with
  | nil => exact h
  | cons name rest => exact h.1

/-- An assignment whose path does not begin another one leaves the maps on that one in order. -/
theorem SortedAlong.applyBelow {path other : List String} {item after : Item} (h : SortedAlong other item)
    (hpath : ¬ path <+: other) (happly : a.applyBelow action path item = .ok after) : SortedAlong other after := by
  induction other generalizing path item after with
  | nil =>
    obtain ⟨name, rest, new, -, -, rfl⟩ := applyBelow_eq_ok_iff.1 happly
    exact Assoc.sorted_insert h name new
  | cons head tail ih =>
    obtain ⟨name, rest, new, rfl, hleaves, rfl⟩ := applyBelow_eq_ok_iff.1 happly
    refine ⟨Assoc.sorted_insert h.1 name new, fun inner hinner => ?_⟩
    rw [Assoc.find?_insert] at hinner
    split at hinner
    · rename_i hname
      subst hname
      cases hinner
      cases hleaves with
      | last _ => exact absurd (List.prefix_append [head] tail) hpath
      | below hold hchanged =>
        exact ih (h.2 _ hold) (fun hprefix => hpath ((List.prefix_cons_inj head).2 hprefix)) hchanged
    · exact h.2 inner hinner

/-- Two assignments to places apart can be made in either order. -/
theorem applyBelow_comm {path other : List String} {item between after : Item} (hsorted : SortedAlong path item)
    (hpath : ¬ path <+: other) (hother : ¬ other <+: path) (ha : a.applyBelow action path item = .ok between)
    (hb : b.applyBelow action other between = .ok after) : ∃ first,
      b.applyBelow action other item = .ok first ∧ a.applyBelow action path first = .ok after := by
  induction path generalizing other item between after with
  | nil => exact absurd List.nil_prefix hpath
  | cons name rest ih =>
    obtain ⟨_, _, new, he, hnew, rfl⟩ := applyBelow_eq_ok_iff.1 ha
    cases he
    obtain ⟨head, tail, new', rfl, hnew', rfl⟩ := applyBelow_eq_ok_iff.1 hb
    by_cases hname : head = name
    · subst hname
      rw [Assoc.find?_insert_self] at hnew'
      -- Neither path ends here, so both go on in the map at the name.
      cases hnew with
      | last _ => exact absurd (List.prefix_append [head] tail) hpath
      | below hinner hchanged =>
        cases hnew' with
        | last _ => exact absurd (List.prefix_append [head] _) hother
        | below hinner' hchanged' =>
          cases hinner'
          obtain ⟨first, hfirst, hsecond⟩ := ih (hsorted.2 _ hinner)
            (fun hprefix => hpath ((List.prefix_cons_inj head).2 hprefix))
            (fun hprefix => hother ((List.prefix_cons_inj head).2 hprefix)) hchanged hchanged'
          refine ⟨Assoc.insert item head (.map first),
            applyBelow_eq_ok_iff.2 ⟨_, _, _, rfl, .below hinner hfirst, rfl⟩,
            applyBelow_eq_ok_iff.2 ⟨_, _, _, rfl, .below (Assoc.find?_insert_self ..) hsecond, ?_⟩⟩
          rw [Assoc.insert_insert_self, Assoc.insert_insert_self]
    · rw [Assoc.find?_insert_of_ne _ _ hname] at hnew'
      refine ⟨Assoc.insert item head new', applyBelow_eq_ok_iff.2 ⟨_, _, _, rfl, hnew', rfl⟩,
        applyBelow_eq_ok_iff.2 ⟨_, _, _, rfl, ?_, Assoc.insert_comm hsorted.1 (Ne.symm hname) _ _⟩⟩
      rwa [Assoc.find?_insert_of_ne _ _ (Ne.symm hname)]

/-- Assignments to places apart that can be made in one order can be made in any other, and leave the same item. -/
theorem foldlM_perm {assignments others : List Assignment} (hperm : assignments.Perm others)
    (hapart : assignments.Pairwise Apart) {item after : Item}
    (hsorted : ∀ a ∈ assignments, SortedAlong a.path item)
    (h : assignments.foldlM (Assignment.apply action) item = .ok after) :
    others.foldlM (Assignment.apply action) item = .ok after := by
  induction hperm generalizing item with
  | nil => exact h
  | cons first _ ih =>
    obtain ⟨hfirst, hrest⟩ := List.pairwise_cons.1 hapart
    rw [List.foldlM_cons] at h ⊢
    obtain ⟨between, hstep, h⟩ := bind_eq_ok.1 h
    refine bind_eq_ok.2 ⟨between, hstep, ih hrest (fun b hb => ?_) h⟩
    exact (hsorted b (List.mem_cons_of_mem _ hb)).applyBelow (hfirst b hb).1 hstep
  | swap first second rest =>
    have hpair := (List.pairwise_cons.1 hapart).1 first List.mem_cons_self
    rw [List.foldlM_cons] at h ⊢
    obtain ⟨between, hone, h⟩ := bind_eq_ok.1 h
    rw [List.foldlM_cons] at h
    obtain ⟨last, htwo, h⟩ := bind_eq_ok.1 h
    obtain ⟨between', htwo', hone'⟩ := applyBelow_comm (hsorted second List.mem_cons_self) hpair.1 hpair.2 hone htwo
    refine bind_eq_ok.2 ⟨between', htwo', ?_⟩
    rw [List.foldlM_cons]
    exact bind_eq_ok.2 ⟨last, hone', h⟩
  | trans hperm _ ih ih' =>
    exact ih' (hapart.perm hperm Apart.symm) (fun a ha => hsorted a (hperm.mem_iff.2 ha)) (ih hapart hsorted h)

end Assignment

namespace Update

/-- Whether the assignments of an update leave an item the same in every order, or fail in every order. -/
def AnyOrder (update : Update) (item : Item) : Prop :=
  (∃ after, ∀ assignments : List Assignment, assignments.Perm update.assignments →
    Update.apply ⟨update.action, assignments⟩ item = .ok after) ∨
  ∀ assignments : List Assignment, assignments.Perm update.assignments →
    ∃ e, Update.apply ⟨update.action, assignments⟩ item = .error e

theorem Separate.anyOrder {update : Update} (h : update.Separate) {item : Item}
    (hitem : (Attribute.map item).Ordered) : update.AnyOrder item := by
  have hsorted : ∀ a : Assignment, Assignment.SortedAlong a.path item := fun a =>
    Assignment.sortedAlong_of_ordered hitem a.path
  cases happly : update.apply item with
  | ok after =>
    exact Or.inl ⟨after, fun others hperm =>
      Assignment.foldlM_perm hperm.symm h.apart (fun a _ => hsorted a) happly⟩
  | error e =>
    refine Or.inr fun others hperm => ?_
    cases hother : Update.apply ⟨update.action, others⟩ item with
    | error failure => exact ⟨failure, rfl⟩
    | ok after =>
      have hback := Assignment.foldlM_perm hperm (h.apart.perm hperm.symm Assignment.Apart.symm)
        (fun a _ => hsorted a) hother
      cases happly.symm.trans hback

end Update

/-! ## Updates of records -/

theorem namedApart_of_unmarked {item : Item} (hsorted : Assoc.Sorted item)
    (hnames : ∀ entry ∈ item, (unmark entry.1).1 = entry.1)
    (hentered : ∀ entry ∈ item, ∀ inner, entry.2 = .map inner → NamedApart inner) : NamedApart item := by
  refine .intro ?_ fun entry hentry _ => hentered entry hentry
  rw [List.map_congr_left hnames]
  exact hsorted.nodup

/-- Entries that are all marked are set whole. -/
theorem namedApart_marked (written : Item) : NamedApart (Assoc.ofList (marked written)) := by
  have hmarks : ∀ entry ∈ Assoc.ofList (marked written), ∃ name, entry.1 = name ++ replaceMark := by
    intro entry hentry
    obtain ⟨own, -, rfl⟩ := List.mem_map.1 (Assoc.mem_ofList hentry)
    exact ⟨own.1, rfl⟩
  refine .intro ?_ fun entry hentry hentered => ?_
  · have hnames := nodup_unmarked hmarks (Assoc.sorted_ofList (marked written)).nodup
    rwa [Assoc.keys, unmarked, List.map_map] at hnames
  · obtain ⟨name, hname⟩ := hmarks entry hentry
    rw [hname, unmark_mark] at hentered
    cases hentered

/-- The update of a record sets the time and, in another place, its fields. -/
theorem Records.separate_updateItem {layout : TableLayout} (hmark : Unmarked layout.dataName) (written : Item)
    (time : String) : (Update.set (Records.updateItem layout written time)).Separate := by
  have hstamp : Assoc.Sorted [(updatedName, Attribute.string time)] := List.pairwise_singleton _ _
  have hupdated : (unmark updatedName).1 = updatedName := by decide
  refine Update.separate_set ?_
  simp only [Records.updateItem]
  split
  · refine namedApart_of_unmarked hstamp (fun entry hentry => ?_) fun entry hentry inner hinner => ?_
    all_goals cases List.mem_singleton.1 hentry
    · exact hupdated
    · cases hinner
  · refine namedApart_of_unmarked (Assoc.sorted_insert hstamp _ _) (fun entry hentry => ?_)
      fun entry hentry inner hinner => ?_
    all_goals rcases Assoc.mem_insert hentry with rfl | hentry
    · rw [unmark_of_not_suffix hmark]
    · cases List.mem_singleton.1 hentry
      exact hupdated
    · cases hinner
      exact namedApart_marked written
    · cases List.mem_singleton.1 hentry
      cases hinner

/-- Whether the update that a call makes, if any, leads to separate places, and can be made in any order. -/
def Call.OrderFree : Call → Prop
  | .updateItem _ _ update _ =>
    update.Separate ∧ ∀ item, (Attribute.map item).Ordered → update.AnyOrder item
  | .getItem .. | .putItem .. | .query _ | .deleteItem .. => True

namespace Update

/-- The paths of an update that sets a tree whose names can be told apart, or that adds one, lead to separate places.
So its assignments can be made in any order on any item. All updates of records are of this kind. -/
theorem order_immaterial :
    (∀ item, NamedApart item → (Update.set item).Separate) ∧
    (∀ item, (Attribute.map item).Ordered → (Update.add item).Separate) ∧
    (∀ update : Update, update.Separate → ∀ item, (Attribute.map item).Ordered → update.AnyOrder item) ∧
    ∀ (ρ : Type) (records : Records ρ), Unmarked records.model.layout.dataName → ∀ args,
      (records.update args).Asks Call.OrderFree := by
  refine ⟨fun _ => separate_set, fun _ => separate_add, fun _ h _ => h.anyOrder, fun ρ records hmark args => ?_⟩
  refine Records.update_asks_of fun {key written} _ _ time => ?_
  have hseparate := Records.separate_updateItem hmark written time
  exact ⟨hseparate, fun _ => hseparate.anyOrder⟩

/-- New counts of the visits of a page, one of them to be set whole. -/
def recount : Item := [("data", .map [("by", .map [("fr", .number "6")]), ("seen:$", .number "10")])]

theorem namedApart_recount : NamedApart recount := by
  refine .intro (by decide) fun entry hentry _ inner hinner => ?_
  cases List.mem_singleton.1 hentry
  cases hinner
  refine .intro (by decide) fun entry hentry _ inner hinner => ?_
  rcases List.mem_pair.1 hentry with rfl | rfl <;> cases hinner
  refine .intro (by decide) fun entry hentry _ inner hinner => ?_
  cases List.mem_singleton.1 hentry
  cases hinner

theorem order_immaterial_visits :
    (Update.set recount).Separate ∧ (Update.add (Table.homeItem "5" "1")).Separate ∧
    (Update.set recount).AnyOrder (Table.homeItem "5" "1") ∧
    ∀ args, (Records.notes.update args).Asks Call.OrderFree := by
  obtain ⟨hset, hadd, horder, hrecords⟩ := order_immaterial
  have hseparate := hset recount namedApart_recount
  have hitem := Table.homeItem_ordered "5" "1"
  exact ⟨hseparate, hadd _ hitem, horder _ hseparate _ hitem, hrecords Json Records.notes (by decide)⟩

end Update

end KeyedRecords
