import KeyedRecords.Proofs.Attribute.Readable
import KeyedRecords.Proofs.Counters.Raise

/-! Stored counters with some more joined to them, in one recursion over both trees: the sums of the numbers on both
sides, what is on one side only as it is, and maps joined entry by entry. This is what merging and setting, and
adding, have to come to. Main statements: `joins_iff`, `join_eq_none_iff`, `join_raises`. -/

namespace KeyedRecords

open Attribute (Node nodeIn nodeAt_entry)

namespace Counters

/-- The text of a stored counter with some more added, if it stands for a number and the sum is finite. -/
def total? (text : String) (added : Number) : Option String := do
  let current ← Number.ofText? text
  let total ← current.add? added
  pure total.text

mutual

/-- A stored value with counters joined to it. Only numbers go with numbers, and maps with maps. -/
def join (stored : Attribute) : Json → Option Attribute
  | .map added =>
    match stored with
    | .map entries => (joinEntries entries added).map .map
    | _ => none
  | .number added =>
    match stored with
    | .number text => (total? text added).map .number
    | _ => none
  | _ => none

/-- A stored map with some entries joined to it. What is new is stored as it is given. -/
def joinEntries (stored : Item) : List (String × Json) → Option Item
  | [] => some stored
  | (name, value) :: rest => do
    let others ← joinEntries stored rest
    match Assoc.find? stored name with
    | some current => (join current value).map (Assoc.insert others name)
    | none => some (Assoc.insert others name (.ofJson value))

end

/-- What is joined to a value that may be missing. -/
def joined? (stored? : Option Attribute) (value : Json) : Option Attribute :=
  match stored? with
  | some stored => join stored value
  | none => some (.ofJson value)

/-- Whether two values at one place do not go together: they are neither two maps nor two numbers with a finite
sum. -/
def Conflict : Attribute → Json → Prop
  | .map _, .map _ => False
  | .number text, .number added => total? text added = none
  | _, _ => True

/-- Whether two values do not go together at some path that both have. -/
def Clashes (stored : Attribute) (added : Json) : Prop :=
  ∃ path current value, stored.valueAt path = some current ∧ added.valueAt path = some value ∧
    Conflict current value

/-! ## Entry by entry -/

theorem joinEntries_cons (stored : Item) (entry : String × Json) (rest : List (String × Json)) :
    joinEntries stored (entry :: rest) = (joinEntries stored rest).bind fun others =>
      (joined? (Assoc.find? stored entry.1) entry.2).map (Assoc.insert others entry.1) := by
  obtain ⟨name, value⟩ := entry
  rw [joinEntries]
  cases joinEntries stored rest with
  | none => rfl
  | some others => cases Assoc.find? stored name <;> rfl

/-- Whether a map is another one with some entries joined to it. -/
structure Joins (stored : Item) (added : Json.Map) (after : Item) : Prop where
  sorted : Assoc.Sorted stored → Assoc.Sorted after
  kept : ∀ name, Assoc.find? added name = none → Assoc.find? after name = Assoc.find? stored name
  joined : ∀ name value, Assoc.find? added name = some value → ∃ new, Assoc.find? after name = some new ∧
    joined? (Assoc.find? stored name) value = some new

section Entries

variable {stored : Item} {added : Json.Map}

theorem joins_of_joinEntries {after : Item} (h : joinEntries stored added = some after) :
    Joins stored added after := by
  induction added generalizing after with
  | nil =>
    rw [joinEntries] at h
    cases h
    exact ⟨id, fun _ _ => rfl, fun name value hvalue => nomatch hvalue⟩
  | cons entry rest ih =>
    rw [joinEntries_cons] at h
    obtain ⟨others, hothers, h⟩ := Option.bind_eq_some_iff.1 h
    obtain ⟨new, hnew, rfl⟩ := Option.map_eq_some_iff.1 h
    have hrest := ih hothers
    have hfind : ∀ name, Assoc.find? (entry :: rest) name =
        if entry.1 = name then some entry.2 else Assoc.find? rest name := fun _ => rfl
    refine ⟨fun hsorted => Assoc.sorted_insert (hrest.sorted hsorted) _ _, ?_, ?_⟩
    · intro name hnone
      rw [hfind] at hnone
      split at hnone
      · cases hnone
      · rename_i hne
        rw [Assoc.find?_insert_of_ne _ _ (Ne.symm hne), hrest.kept name hnone]
    · intro name value hvalue
      rw [hfind] at hvalue
      split at hvalue
      · rename_i he
        cases hvalue
        subst he
        exact ⟨new, Assoc.find?_insert_self .., hnew⟩
      · rename_i hne
        rw [Assoc.find?_insert_of_ne _ _ (Ne.symm hne)]
        exact hrest.joined name value hvalue

/-- Entries cannot be joined to a map if and only if one of them cannot. -/
theorem joinEntries_eq_none_iff : joinEntries stored added = none ↔
    ∃ entry ∈ added, joined? (Assoc.find? stored entry.1) entry.2 = none := by
  induction added with
  | nil => simp [joinEntries]
  | cons entry rest ih =>
    rw [joinEntries_cons, List.exists_mem_cons_iff, ← ih]
    cases joinEntries stored rest with
    | none => simp
    | some others => simp

/-- A sorted map is the only one with some entries joined to it. -/
theorem joins_iff (hstored : Assoc.Sorted stored) (hadded : Assoc.Sorted added) {after : Item} :
    Joins stored added after ↔ joinEntries stored added = some after := by
  refine ⟨fun h => ?_, joins_of_joinEntries⟩
  cases hother : joinEntries stored added with
  | none =>
    obtain ⟨entry, hentry, hnone⟩ := joinEntries_eq_none_iff.1 hother
    obtain ⟨new, -, hnew⟩ := h.joined entry.1 entry.2 (Assoc.find?_of_mem hadded.nodup hentry)
    cases hnone.symm.trans hnew
  | some other =>
    have hjoins := joins_of_joinEntries hother
    refine congrArg some (Assoc.eq_of_find?_eq (hjoins.sorted hstored) (h.sorted hstored) fun name => ?_)
    cases hvalue : Assoc.find? added name with
    | none => rw [hjoins.kept name hvalue, h.kept name hvalue]
    | some value =>
      obtain ⟨new, hnew, hjoined⟩ := h.joined name value hvalue
      obtain ⟨new', hnew', hjoined'⟩ := hjoins.joined name value hvalue
      rw [hnew, hnew', ← hjoined, ← hjoined']

end Entries

/-! ## Conflicts -/

theorem conflict_leaf_iff {stored : Attribute} {value : Json} (hleaf : ∀ entries, value ≠ .map entries) :
    join stored value = none ↔ Conflict stored value := by
  cases value with
  | map entries => exact absurd rfl (hleaf entries)
  | number added => cases stored <;> simp [join, Conflict]
  | _ => cases stored <;> simp [join, Conflict]

/-- Counters can be joined to a value unless the two clash at some path. -/
theorem join_eq_none_iff {stored : Attribute} {added : Json} (hordered : added.Ordered) :
    join stored added = none ↔ Clashes stored added := by
  induction added using Json.tree_induction generalizing stored with
  | leaf value hleaf =>
    rw [conflict_leaf_iff hleaf]
    constructor
    · exact fun hconflict => ⟨[], stored, value, stored.valueAt_nil, value.valueAt_nil, hconflict⟩
    · rintro ⟨path, current, found, hcurrent, hfound, hconflict⟩
      cases path with
      | nil =>
        cases stored.valueAt_nil.symm.trans hcurrent
        cases value.valueAt_nil.symm.trans hfound
        exact hconflict
      | cons name rest => cases value <;> first | exact absurd rfl (hleaf _) | cases hfound
  | map added ih =>
    cases stored with
    | map entries =>
      rw [join, Option.map_eq_none_iff, joinEntries_eq_none_iff]
      constructor
      · rintro ⟨entry, hentry, hnone⟩
        have hvalue := Assoc.find?_of_mem hordered.sorted.nodup hentry
        cases hcurrent : Assoc.find? entries entry.1 with
        | none =>
          rw [hcurrent] at hnone
          cases hnone
        | some current =>
          rw [hcurrent] at hnone
          obtain ⟨path, below, found, hbelow, hfound, hconflict⟩ :=
            (ih entry hentry (hordered.inner hvalue)).1 hnone
          refine ⟨entry.1 :: path, below, found, ?_, ?_, hconflict⟩
          · simp only [Attribute.valueAt, hcurrent]
            exact hbelow
          · rw [Json.valueAt_map, hvalue]
            exact hfound
      · rintro ⟨path, below, found, hbelow, hfound, hconflict⟩
        cases path with
        | nil =>
          cases hbelow
          cases hfound
          cases hconflict
        | cons name path =>
          obtain ⟨value, hvalue, hfound⟩ := Option.bind_eq_some_iff.1 hfound
          obtain ⟨current, hcurrent, hbelow⟩ := Option.bind_eq_some_iff.1 hbelow
          have hentry := Assoc.mem_of_find? hvalue
          refine ⟨(name, value), hentry, ?_⟩
          rw [hcurrent]
          exact (ih _ hentry (hordered.inner hvalue)).2 ⟨path, below, found, hbelow, hfound, hconflict⟩
    | _ =>
      refine iff_of_true rfl ⟨[], _, _, Attribute.valueAt_nil _, rfl, trivial⟩

/-! ## What comes of a join -/

/-- A value that can be read can be read when counters have been joined to it. -/
theorem join_readable {stored new : Attribute} {value : Json} (hstored : stored.Ordered) (hread : stored.Readable)
    (hvalue : value.Ordered) (h : join stored value = some new) : new.Readable := by
  induction value using Json.tree_induction generalizing stored new with
  | leaf value hleaf =>
    cases value with
    | map entries => exact absurd rfl (hleaf entries)
    | number added =>
      cases stored <;> simp only [join] at h <;> try cases h
      obtain ⟨text, htext, rfl⟩ := Option.map_eq_some_iff.1 h
      obtain ⟨current, -, htext⟩ := Option.bind_eq_some_iff.1 htext
      obtain ⟨total, -, htext⟩ := Option.bind_eq_some_iff.1 htext
      cases htext
      exact Attribute.readable_ofJson (.number total)
    | _ => cases h
  | map added ih =>
    cases stored <;> simp only [join] at h <;> try cases h
    obtain ⟨after, hafter, rfl⟩ := Option.map_eq_some_iff.1 h
    have hjoins := joins_of_joinEntries hafter
    refine Attribute.readable_map_iff.2 fun entry hentry => ?_
    have hfound := Assoc.find?_of_mem (hjoins.sorted hstored.sorted).nodup hentry
    have hentries := fun name current (he : Assoc.find? _ name = some current) =>
      Attribute.readable_map_iff.1 hread _ (Assoc.mem_of_find? he)
    cases hname : Assoc.find? added entry.1 with
    | none => exact hentries entry.1 _ ((hjoins.kept entry.1 hname).symm.trans hfound)
    | some value =>
      obtain ⟨new, hnew, hjoined⟩ := hjoins.joined entry.1 value hname
      cases hnew.symm.trans hfound
      cases hcurrent : Assoc.find? _ entry.1 with
      | none =>
        rw [hcurrent] at hjoined
        exact Option.some.inj hjoined ▸ Attribute.readable_ofJson value
      | some current =>
        rw [hcurrent] at hjoined
        exact ih _ (Assoc.mem_of_find? hname) (hstored.inner hcurrent) (hentries _ _ hcurrent)
          (hvalue.inner hname) hjoined

end Counters

/-- A value that is stored where nothing was raises the counters in it. -/
theorem raises_ofJson {value : Json} (h : value.Ordered) : Raises none value (Attribute.ofJson value) := by
  constructor
  · intro path n hn
    obtain ⟨inRange, hn⟩ := Json.integerAt?_eq_some.1 hn
    rw [Attribute.nodeAt_ofJson, hn, show Node.amount (nodeIn none path) = 0 from rfl, Int.zero_add]
    rfl
  · intro path entries hentries
    rw [Attribute.nodeAt_ofJson, hentries]
    rfl
  · intro path hnone
    rw [Attribute.nodeAt_ofJson, hnone]
    rfl
  · exact fun _ => Attribute.ordered_ofJson h

namespace Counters

theorem total?_integers {current : String} {a b : Int} {ha : WordRange a} {hb : WordRange b}
    (hcurrent : Number.ofText? current = some (.integer a ha)) (hsum : a.natAbs + b.natAbs ≤ greatestCounter) :
    total? current (.integer b hb) = some (toString (a + b)) := by
  obtain ⟨inRange, hadd⟩ := Number.add?_integers ha hb hsum
  simp only [total?, hcurrent]
  show ((Number.integer a ha).add? (.integer b hb)).bind _ = _
  rw [hadd]
  rfl

/-- Counters that fit what is stored can be joined to it, which raises them. -/
theorem join_raises {value : Json} (hordered : value.Ordered) (hintegral : value.Integral)
    {stored? : Option Attribute} (hfits : Fits stored? value) :
    ∃ new, joined? stored? value = some new ∧ Raises stored? value new := by
  induction value using Json.tree_induction generalizing stored? with
  | leaf value hleaf =>
    rcases hintegral.cases with ⟨entries, rfl⟩ | ⟨n, inRange, rfl⟩
    · exact absurd rfl (hleaf entries)
    · have hraises := Raises.number hfits
      cases stored? with
      | none => exact ⟨_, rfl, raises_ofJson hordered⟩
      | some stored =>
        obtain ⟨hinteger, hsum⟩ := hfits.counters [] n rfl
        have hnode : nodeIn (some stored) [] = some stored.node := Attribute.nodeAt_nil stored
        obtain ⟨current, hcurrent⟩ := Option.isSome_iff_exists.1 (hinteger _ hnode)
        obtain ⟨text, _, hleaf, htext⟩ := Attribute.Node.integer?_eq_some.1 hcurrent
        obtain ⟨rfl, -⟩ := Attribute.node_eq_leaf_iff.1 hleaf
        rw [hnode, Node.amount_eq hcurrent] at hsum hraises
        refine ⟨_, ?_, hraises⟩
        rw [joined?, join, total?_integers htext hsum]
        rfl
  | map added ih =>
    cases stored? with
    | none => exact ⟨_, rfl, raises_ofJson hordered⟩
    | some stored =>
      have hroot := hfits.maps [] added rfl stored.node (Attribute.nodeAt_nil stored)
      obtain ⟨entries, rfl⟩ := Attribute.node_eq_map_iff.1 hroot
      have hentries : ∀ name value, Assoc.find? added name = some value → ∃ new,
          joined? (Assoc.find? entries name) value = some new ∧ Raises (Assoc.find? entries name) value new :=
        fun name value hvalue => ih _ (Assoc.mem_of_find? hvalue) (hordered.inner hvalue)
          (hintegral.inner hvalue) (hfits.entry hvalue)
      cases hafter : joinEntries entries added with
      | none =>
        obtain ⟨entry, hentry, hnone⟩ := joinEntries_eq_none_iff.1 hafter
        obtain ⟨new, hnew, -⟩ := hentries _ _ (Assoc.find?_of_mem hordered.sorted.nodup hentry)
        cases hnone.symm.trans hnew
      | some after =>
        have hjoins := joins_of_joinEntries hafter
        refine ⟨.map after, by rw [joined?, join, hafter]; rfl, ?_⟩
        refine Raises.of_entries hjoins.sorted hjoins.kept fun name value hvalue => ?_
        obtain ⟨new, hnew, hjoined⟩ := hjoins.joined name value hvalue
        obtain ⟨new', hnew', hraises⟩ := hentries name value hvalue
        cases hjoined.symm.trans hnew'
        exact ⟨new, hnew, hraises⟩

end Counters

end KeyedRecords
