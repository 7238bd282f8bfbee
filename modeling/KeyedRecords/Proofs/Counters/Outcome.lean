import KeyedRecords.Proofs.Counters.Accumulate
import KeyedRecords.Proofs.Update.Leaves

/-! What comes of merging counters into stored ones and setting what the merge brings. The counters are joined to those
stored, or the merge is refused since they clash. Into no counters at all they are merged as they are, without marks,
and setting them fails at the first map, since the maps that are to be entered are not there. Main statement:
`Counters.outcome`. -/

namespace KeyedRecords

/-! ## Counters that go where there are none -/

namespace Counters

/-- Whether counters have maps to enter while there are none stored. -/
def Blocked (data : Item) (added : Json.Map) : Prop :=
  data = [] ∧ ∃ entry ∈ added, ∃ first rest, entry.2 = .map (first :: rest)

section Empty

variable {added : Json.Map} (hsorted : Assoc.Sorted added) (hnames : (Json.map added).Named Unmarked)

include hsorted hnames

/-- Counters without maps to enter are joined to no counters by setting them. -/
theorem setEntries_flat (hflat : ∀ entry ∈ added, ∀ first rest, entry.2 ≠ .map (first :: rest))
    (path : List String) : ∃ after, (setEntries path (Attribute.ofJsonMap added)).foldlM
        (Assignment.applyAt path.length .set) [] = .ok after ∧ joinEntries [] added = some after := by
  have hbrought : ∀ entry ∈ added, Merged path [] entry (some entry) := by
    intro entry hentry
    refine ⟨congrArg Prod.fst (unmark_of_mem hsorted hnames hentry), Attribute.ofJson entry.2, ?_, rfl⟩
    rw [unmark_of_mem hsorted hnames hentry, setAt_flat (hflat entry hentry)]
    refine Assignment.changes_last ?_ (newValue_set _ _)
    simp
  have hset := setEntries_joins hsorted (by rw [map_unmark hsorted hnames]) List.Pairwise.nil
    (fun entry hentry => ⟨entry, hentry, hbrought entry hentry⟩) fun entry hentry =>
      Or.inr ⟨entry, hentry, congrArg Prod.fst (unmark_of_mem hsorted hnames hentry)⟩
  rwa [Assoc.ofList_of_sorted hsorted] at hset

end Empty

/-- Counters with a map to enter cannot be set where there are none. -/
theorem setEntries_blocked {added : Json.Map} (hordered : (Json.map added).Ordered)
    (hnames : (Json.map added).Named Unmarked) (hblocked : Blocked [] added) (path : List String) : ∃ e,
    (setEntries path (Attribute.ofJsonMap added)).foldlM (Assignment.applyAt path.length .set) [] = .error e ∧
      e.InvalidPath := by
  obtain ⟨-, ⟨name, value⟩, hentry, first, rest, rfl⟩ := hblocked
  refine (setEntries_overlays hordered hnames path []).2 fun hadmits => ?_
  have hvalue := Assoc.find?_of_mem hordered.sorted.nodup hentry
  obtain ⟨inner, hinner⟩ := (admits_map_iff.1 hadmits name _ hvalue).exists_map
  cases hinner

/-! ## The outcome -/

/-- The ways in which a merge ends, each with what comes of setting what it brings at a path. -/
inductive Outcome (path : List String) (data : Item) (added : Json.Map) : Result Json.Map → Prop
  | joined {merged : Json.Map} {after : Item} (hjoin : joinEntries data added = some after)
      (hset : (setEntries path (Attribute.ofJsonMap merged)).foldlM (Assignment.applyAt path.length .set) data =
        .ok after) (hfree : ¬ Blocked data added) : Outcome path data added (.ok merged)
  | refused {e : RecordError} (hnone : joinEntries data added = none) (he : Refusal e)
      (hfree : ¬ Blocked data added) : Outcome path data added (.error e)
  | blocked {merged : Json.Map} {e : StoreError} (hjoin : ∃ after, joinEntries data added = some after)
      (hset : (setEntries path (Attribute.ofJsonMap merged)).foldlM (Assignment.applyAt path.length .set) data =
        .error e) (he : e.InvalidPath) (hblocked : Blocked data added) : Outcome path data added (.ok merged)

theorem joinEntries_nil (added : Json.Map) : ∃ after, joinEntries [] added = some after := by
  cases hjoin : joinEntries [] added with
  | some after => exact ⟨after, rfl⟩
  | none =>
    obtain ⟨entry, -, hnone⟩ := joinEntries_eq_none_iff.1 hjoin
    cases hnone

/-- A merge ends in one of these ways. -/
theorem outcome {data : Item} (hdata : (Attribute.map data).Ordered) {stored : Json.Map}
    (hread : Attribute.toJsonMap data = .ok stored) {added : Json.Map} {path? : Option String}
    (hordered : (Json.map (nest path? added)).Ordered) (hnames : (Json.map (nest path? added)).Named Unmarked)
    (path : List String) : Outcome path data (nest path? added) (merge stored added path?) := by
  cases data with
  | nil =>
    cases hread
    show Outcome path [] (nest path? added) (.ok (nest path? added))
    by_cases hblocked : Blocked [] (nest path? added)
    · obtain ⟨e, hset, he⟩ := setEntries_blocked hordered hnames hblocked path
      exact .blocked (joinEntries_nil _) hset he hblocked
    · have hflat : ∀ entry ∈ nest path? added, ∀ first rest, entry.2 ≠ .map (first :: rest) :=
        fun entry hentry first rest hvalue => hblocked ⟨rfl, entry, hentry, first, rest, hvalue⟩
      obtain ⟨after, hset, hjoin⟩ := setEntries_flat hordered.sorted hnames hflat path
      exact .joined hjoin hset hblocked
  | cons first rest =>
    have hfree : ¬ Blocked (first :: rest) (nest path? added) := fun h => nomatch h.1
    rcases merge_joins hread (List.cons_ne_nil _ _) hdata hordered hnames path with
      ⟨merged, after, hmerged, hjoin, hset⟩ | ⟨hnone, e, herror, he⟩
    · rw [hmerged]
      exact .joined hjoin hset hfree
    · rw [herror]
      exact .refused hnone he hfree

end Counters

end KeyedRecords
