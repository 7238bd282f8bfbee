import KeyedRecords.Proofs.Counters.Join
import KeyedRecords.Proofs.Lists

/-! An update that adds counters joins them to a tree, wherever the tree that they go to has the maps they are in, and
fails if they clash with it. Main statements: `addEntries_joins`, `addEntries_raises`. -/

namespace KeyedRecords

open Attribute (Node nodeIn nodeAt_entry)

/-- Whether a tree has every map of some counters. -/
def Covers (stored? : Option Attribute) (delta : Json) : Prop :=
  ∀ path entries, delta.valueAt path = some (.map entries) → nodeIn stored? path = some .map

theorem Covers.entry {item : Item} {counters : Json.Map} (h : Covers (some (.map item)) (.map counters))
    {name : String} {value : Json} (hvalue : Assoc.find? counters name = some value) :
    Covers (Assoc.find? item name) value := by
  intro path entries hentries
  rw [← nodeAt_entry]
  refine h (name :: path) entries ?_
  rw [Json.valueAt_map, hvalue]
  exact hentries

theorem Covers.single {item : Item} {name : String} {value : Json}
    (h : Covers (Assoc.find? item name) value) : Covers (some (.map item)) (.map [(name, value)]) := by
  intro path entries hentries
  cases path with
  | nil => rfl
  | cons other rest =>
    rw [Json.valueAt_single] at hentries
    split at hentries
    · rename_i he
      rw [he]
      exact (nodeAt_entry item name rest).trans (h rest entries hentries)
    · cases hentries

/-- A tree with every map of some counters has one for the whole of them. -/
theorem Covers.map {stored? : Option Attribute} {entries : Json.Map} (h : Covers stored? (.map entries)) :
    ∃ inner, stored? = some (.map inner) := Attribute.exists_map_of_nodeIn (h [] entries rfl)

/-! ## One counter -/

section Number

variable {stored? : Option Attribute} {added : Number} (path : List String)

/-- What an addition leaves is what is joined. -/
theorem newValue_add {new : Attribute} (h : Counters.joined? stored? (.number added) = some new) :
    Assignment.newValue .add ⟨path, Attribute.ofJson (.number added)⟩ stored? = .ok new := by
  cases stored? with
  | none => exact congrArg Except.ok (Option.some.inj h)
  | some stored =>
    cases stored <;> simp only [Counters.joined?, Counters.join] at h <;> try cases h
    rename_i current
    obtain ⟨text, htext, rfl⟩ := Option.map_eq_some_iff.1 h
    obtain ⟨number, hnumber, htext⟩ := Option.bind_eq_some_iff.1 htext
    obtain ⟨total, htotal, htext⟩ := Option.bind_eq_some_iff.1 htext
    cases htext
    have hcurrent : Attribute.readNumber current = .ok number := by
      rw [Attribute.readNumber, hnumber]
    show (addTexts current added.text).map Attribute.number = _
    simp only [addTexts, hcurrent, Attribute.readNumber_text, htotal]
    rfl

/-- What cannot be joined cannot be added. -/
theorem newValue_add_fails (h : Counters.joined? stored? (.number added) = none) : ∃ detail,
    Assignment.newValue .add ⟨path, Attribute.ofJson (.number added)⟩ stored? = .error (.validation detail) := by
  cases stored? with
  | none => cases h
  | some stored =>
    cases stored with
    | number current =>
      simp only [Counters.joined?, Counters.join, Option.map_eq_none_iff, Counters.total?] at h
      show ∃ detail, (addTexts current added.text).map Attribute.number = _
      cases hnumber : Number.ofText? current with
      | none =>
        simp only [addTexts, Attribute.readNumber, hnumber]
        exact ⟨_, rfl⟩
      | some number =>
        have htotal : number.add? added = none := by
          rw [hnumber] at h
          cases htotal : number.add? added with
          | none => rfl
          | some total =>
            have hsome : (do let total ← some total; pure total.text) = (none : Option String) := htotal ▸ h
            cases hsome
        have hcurrent : Attribute.readNumber current = .ok number := by
          rw [Attribute.readNumber, hnumber]
        simp only [addTexts, hcurrent, Attribute.readNumber_text, htotal]
        exact ⟨_, rfl⟩
    | _ => exact ⟨_, rfl⟩

end Number

/-! ## A tree of counters -/

theorem addEntries_eq_flatMap (parent : List String) (entries : Item) :
    addEntries parent entries = entries.flatMap fun entry => addAt (parent ++ [entry.1]) entry.2 :=
  eq_flatMap rfl (fun _ _ => rfl) entries

theorem addEntries_ofJsonMap (parent : List String) (counters : Json.Map) :
    addEntries parent (Attribute.ofJsonMap counters) =
      counters.flatMap fun entry => addAt (parent ++ [entry.1]) (Attribute.ofJson entry.2) := by
  rw [addEntries_eq_flatMap, Attribute.ofJsonMap_eq_map, List.flatMap_map]

/-- Whether assignments to a name join a value to the one at the name, or fail if it cannot be joined. -/
def Adds (depth : Nat) (assignments : List Assignment) (name : String) (stored? : Option Attribute)
    (value : Json) : Prop :=
  (∃ new, Assignment.Changes depth .add assignments name stored? new ∧
    Counters.joined? stored? value = some new) ∨
  Counters.joined? stored? value = none ∧
    ∃ detail, Assignment.Fails depth .add assignments name stored? (.validation detail)

/-- If each entry of some counters is joined on its own or fails, adding them joins them all or fails. -/
theorem addEntries_joins_of_entries (parent : List String) {item : Item} {counters : Json.Map}
    (hitem : Assoc.Sorted item) (hsorted : Assoc.Sorted counters)
    (h : ∀ entry ∈ counters, Adds parent.length (addAt (parent ++ [entry.1]) (Attribute.ofJson entry.2)) entry.1
      (Assoc.find? item entry.1) entry.2) :
    (∃ after, Counters.joinEntries item counters = some after ∧
      (addEntries parent (Attribute.ofJsonMap counters)).foldlM (Assignment.applyAt parent.length .add) item =
        .ok after) ∨
    Counters.joinEntries item counters = none ∧ ∃ detail,
      (addEntries parent (Attribute.ofJsonMap counters)).foldlM (Assignment.applyAt parent.length .add) item =
        .error (.validation detail) := by
  rw [addEntries_ofJsonMap]
  cases hjoin : Counters.joinEntries item counters with
  | some joined =>
    have hall := fun entry hentry => (h entry hentry).resolve_right fun ⟨hnone, _⟩ => by
      cases hjoin.symm.trans (Counters.joinEntries_eq_none_iff.2 ⟨entry, hentry, hnone⟩)
    obtain ⟨after, hafter, hentries, hothers, hkept⟩ := Assignment.foldlM_changes hsorted.nodup hall
    have hjoins : Counters.Joins item counters after := by
      refine ⟨hkept, fun name hnone => hothers name (Assoc.find?_eq_none_iff.1 hnone), ?_⟩
      exact fun name value hvalue => hentries (name, value) (Assoc.mem_of_find? hvalue)
    cases hjoin.symm.trans ((Counters.joins_iff hitem hsorted).1 hjoins)
    exact Or.inl ⟨joined, rfl, hafter⟩
  | none =>
    obtain ⟨entry, hentry, hnone⟩ := Counters.joinEntries_eq_none_iff.1 hjoin
    obtain ⟨-, detail, hfails⟩ := (h entry hentry).resolve_left fun ⟨new, _, hnew⟩ => by
      cases hnone.symm.trans hnew
    have hrun : ∃ e, (counters.flatMap fun entry => addAt (parent ++ [entry.1]) (Attribute.ofJson entry.2)).foldlM
        (Assignment.applyAt parent.length .add) item = .error e ∧ ∃ detail, e = .validation detail :=
      Assignment.foldlM_fails hsorted.nodup
        (fun other hother => (h other hother).imp (fun ⟨new, hchanges, _⟩ => ⟨new, hchanges⟩)
          fun ⟨_, detail, hfails⟩ => ⟨_, hfails, detail, rfl⟩)
        ⟨entry, hentry, _, hfails⟩
    obtain ⟨e, hrun, detail, rfl⟩ := hrun
    exact Or.inr ⟨rfl, detail, hrun⟩

theorem addAt_adds {value : Json} (hordered : value.Ordered) (hnumeric : value.Numeric) {parent : List String}
    {name : String} {stored? : Option Attribute} (hstored : ∀ stored, stored? = some stored → stored.Ordered)
    (hcovers : Covers stored? value) :
    Adds parent.length (addAt (parent ++ [name]) (Attribute.ofJson value)) name stored? value := by
  induction value using Json.tree_induction generalizing parent name stored? with
  | leaf value hleaf =>
    rcases hnumeric.cases with ⟨entries, rfl⟩ | ⟨added, rfl⟩
    · exact absurd rfl (hleaf entries)
    · have hpath : (parent ++ [name]).drop parent.length = [name] := by simp
      cases hjoined : Counters.joined? stored? (.number added) with
      | some new => exact Or.inl ⟨new, Assignment.changes_last hpath (newValue_add _ hjoined), hjoined⟩
      | none =>
        obtain ⟨detail, hfails⟩ := newValue_add_fails (parent ++ [name]) hjoined
        exact Or.inr ⟨hjoined, detail, Assignment.fails_last hpath hfails⟩
  | map entries ih =>
    obtain ⟨inner, rfl⟩ := hcovers.map
    have hinner := hstored _ rfl
    have hbelow : ∀ a ∈ addEntries (parent ++ [name]) (Attribute.ofJsonMap entries),
        Assignment.Below parent.length name a := fun _ ha => below_of_mem_addEntries ha
    have hentries := addEntries_joins_of_entries (parent ++ [name]) hinner.sorted hordered.sorted
      fun entry hentry =>
        have hvalue := Assoc.find?_of_mem hordered.sorted.nodup hentry
        ih entry hentry (hordered.inner hvalue) (hnumeric.inner hvalue) (fun _ he => hinner.inner he)
          (hcovers.entry hvalue)
    rw [List.length_append, List.length_singleton] at hentries
    have hjoin : Counters.joined? (some (.map inner)) (.map entries) =
      (Counters.joinEntries inner entries).map .map := rfl
    rcases hentries with ⟨changed, hjoined, hchanged⟩ | ⟨hnone, detail, hfails⟩
    · exact Or.inl ⟨.map changed, Assignment.changes_nested hbelow hchanged, by rw [hjoin, hjoined]; rfl⟩
    · exact Or.inr ⟨by rw [hjoin, hnone]; rfl, detail, Assignment.fails_nested hbelow hfails⟩

/-- Adding counters to an item joins them to it, whatever else the item holds, or fails if they clash with it. -/
theorem addEntries_joins {item : Item} {counters : Json.Map} (hordered : (Json.map counters).Ordered)
    (hnumeric : (Json.map counters).Numeric) (hitem : (Attribute.map item).Ordered)
    (hcovers : Covers (some (.map item)) (.map counters)) :
    (∃ after, Counters.joinEntries item counters = some after ∧
      (Update.add (Attribute.ofJsonMap counters)).apply item = .ok after) ∨
    Counters.joinEntries item counters = none ∧ ∃ detail,
      (Update.add (Attribute.ofJsonMap counters)).apply item = .error (.validation detail) := by
  refine addEntries_joins_of_entries [] hitem.sorted hordered.sorted fun entry hentry => ?_
  have hvalue := Assoc.find?_of_mem hordered.sorted.nodup hentry
  exact addAt_adds (hordered.inner hvalue) (hnumeric.inner hvalue) (fun _ he => hitem.inner he)
    (hcovers.entry hvalue)

/-- Adding counters that fit an item raises them. -/
theorem addEntries_raises {item : Item} {counters : Json.Map} (hordered : (Json.map counters).Ordered)
    (hintegral : (Json.map counters).Integral) (hitem : (Attribute.map item).Ordered)
    (hfits : Fits (some (.map item)) (.map counters)) (hcovers : Covers (some (.map item)) (.map counters)) :
    ∃ after, (Update.add (Attribute.ofJsonMap counters)).apply item = .ok after ∧
      Raises (some (.map item)) (.map counters) (.map after) := by
  obtain ⟨new, hnew, hraises⟩ := Counters.join_raises hordered hintegral hfits
  obtain ⟨joined, hjoined, rfl⟩ := Option.map_eq_some_iff.1 hnew
  rcases addEntries_joins hordered hintegral.numeric hitem hcovers with
    ⟨after, hafter, happly⟩ | ⟨hnone, -⟩
  · cases hafter.symm.trans hjoined
    exact ⟨_, happly, hraises⟩
  · cases hnone.symm.trans hjoined

end KeyedRecords
