import KeyedRecords.Counters
import KeyedRecords.Proofs.Counters.Join
import KeyedRecords.Proofs.Lists
import KeyedRecords.Proofs.Update.Overlay

/-! Setting what a merge of counters brings joins them to what is stored, and a merge fails where they clash with it.
Maps that are new are set whole under marked names, maps that are there are entered, and so the stored maps need not
be there before. Main statements: `merge_joins`, `merge_raises`. -/

namespace KeyedRecords

/-- Whether a name ends in no mark. -/
def Unmarked (name : String) : Prop := ¬ replaceMark.toList <:+ name.toList

instance (name : String) : Decidable (Unmarked name) :=
  inferInstanceAs (Decidable (¬ replaceMark.toList <:+ name.toList))

/-- Whether all names in a tree have a property. -/
def Json.Named (P : String → Prop) (value : Json) : Prop := value.Throughout fun path _ => ∀ name ∈ path, P name

theorem Json.Named.inner {P : String → Prop} {entries : Json.Map} (h : (Json.map entries).Named P)
    {name : String} {value : Json} (hvalue : Assoc.find? entries name = some value) :
    P name ∧ value.Named P := by
  have hnames := Throughout.inner h hvalue
  exact ⟨hnames [] value value.valueAt_nil name List.mem_cons_self,
    fun path found hfound => (List.forall_mem_cons.1 (hnames path found hfound)).2⟩

theorem Json.named_of_not_map {P : String → Prop} {value : Json} (h : ∀ entries, value ≠ .map entries) :
    value.Named P := throughout_of_not_map h fun _ hname => absurd hname List.not_mem_nil

theorem Json.Named.single {value : Json} {P : String → Prop} (h : value.Named P) {name : String} (hname : P name) :
    (Json.map [(name, value)]).Named P :=
  Throughout.single (fun path found hfound => List.forall_mem_cons.2 ⟨hname, h path found hfound⟩)
    fun _ hself => absurd hself List.not_mem_nil

/-! ## What a merge brings -/

/-- What a merge brings for one entry of some counters, and the effect it has: if it brings nothing, joining the entry
changes nothing, otherwise setting what it brings joins the entry. -/
def Merged (path : List String) (item : Item) (entry : String × Json) : Option (String × Json) → Prop
  | none => ∃ stored, Assoc.find? item entry.1 = some stored ∧ Counters.join stored entry.2 = some stored
  | some (name, value) => (unmark name).1 = entry.1 ∧ ∃ new,
      Assignment.Changes path.length .set
        (setAt (path ++ [entry.1]) (unmark name).2 (Attribute.ofJson value)) entry.1
        (Assoc.find? item entry.1) new ∧
      Counters.joined? (Assoc.find? item entry.1) entry.2 = some new

/-- Whether a failure is one of a merge: two values do not go together, or their sum is not finite. -/
def Counters.Refusal : RecordError → Prop
  | .typeMismatch .. | .invalidValue (.sumNotFinite _) => True
  | _ => False

/-- Whether a merge of one entry brings what joins it, or is refused if it cannot be joined. -/
def Counters.Merges (path : List String) (item : Item) (entry : String × Json)
    (result : Result (Option (String × Json))) : Prop :=
  (∃ out, result = .ok out ∧ Merged path item entry out) ∨
    joined? (Assoc.find? item entry.1) entry.2 = none ∧ ∃ e, result = .error e ∧ Refusal e

theorem Merged.joined {path : List String} {item : Item} {entry : String × Json} {out : Option (String × Json)}
    (h : Merged path item entry out) : ∃ new, Counters.joined? (Assoc.find? item entry.1) entry.2 = some new := by
  cases out with
  | none =>
    obtain ⟨stored, hstored, hjoin⟩ := h
    exact ⟨stored, by rw [hstored]; exact hjoin⟩
  | some p =>
    obtain ⟨-, new, -, hjoined⟩ := h
    exact ⟨new, hjoined⟩

namespace Counters

def mergeEntry (parent : String) (stored : Json.Map) (entry : String × Json) :
    Result (Option (String × Json)) :=
  match Assoc.find? stored entry.1 with
  | none => pure (some (newName entry.1 entry.2, entry.2))
  | some current => do
    let merged? ← mergeValue (fieldPath parent entry.1) current entry.2
    pure (merged?.map fun merged => (entry.1, merged))

theorem mergeEntries_cons (parent : String) (stored : Json.Map) (entry : String × Json)
    (rest : List (String × Json)) :
    mergeEntries parent stored (entry :: rest) = (do
      let brought ← mergeEntry parent stored entry
      let others ← mergeEntries parent stored rest
      pure (brought.toList ++ others)) := by
  obtain ⟨name, value⟩ := entry
  rw [mergeEntries, mergeEntry]
  dsimp only
  cases Assoc.find? stored name with
  | none => rfl
  | some current =>
    dsimp only
    cases mergeValue (fieldPath parent name) current value with
    | error e => rfl
    | ok merged? =>
      cases merged? with
      | none => exact (bind_pure (mergeEntries parent stored rest)).symm
      | some merged => rfl

/-- A merge brings what it brings for the entries, in their order. -/
theorem mergeEntries_merged {parent : String} {stored : Json.Map} {path : List String} {item : Item}
    {added : Json.Map}
    (h : ∀ entry ∈ added, ∃ out, mergeEntry parent stored entry = .ok out ∧ Merged path item entry out) :
    ∃ merged, mergeEntries parent stored added = .ok merged ∧
      (merged.map fun p => (unmark p.1).1).Sublist (Assoc.keys added) ∧
      (∀ p ∈ merged, ∃ entry ∈ added, Merged path item entry (some p)) ∧
      ∀ entry ∈ added, Merged path item entry none ∨ ∃ p ∈ merged, (unmark p.1).1 = entry.1 := by
  induction added with
  | nil =>
    exact ⟨[], by rw [mergeEntries]; rfl, List.Sublist.refl _, fun _ hp => absurd hp List.not_mem_nil,
      fun _ hp => absurd hp List.not_mem_nil⟩
  | cons entry rest ih =>
    obtain ⟨out, hout, hmerged⟩ := h entry List.mem_cons_self
    obtain ⟨others, hothers, hsub, hbrought, hall⟩ :=
      ih fun other hother => h other (List.mem_cons_of_mem _ hother)
    have hrun : mergeEntries parent stored (entry :: rest) = .ok (out.toList ++ others) := by
      rw [mergeEntries_cons, hout, hothers]
      rfl
    refine ⟨_, hrun, ?_, ?_, ?_⟩
    · cases out with
      | none => exact hsub.cons _
      | some p =>
        show ((unmark p.1).1 :: _).Sublist (entry.1 :: _)
        rw [hmerged.1]
        exact hsub.cons_cons _
    · intro p hp
      rcases List.mem_append.1 hp with hp | hp
      · cases Option.mem_toList.1 hp
        exact ⟨entry, List.mem_cons_self, hmerged⟩
      · obtain ⟨other, hother, hp⟩ := hbrought p hp
        exact ⟨other, List.mem_cons_of_mem _ hother, hp⟩
    · intro other hother
      rcases List.mem_cons.1 hother with rfl | hother
      · cases out with
        | none => exact Or.inl hmerged
        | some p => exact Or.inr ⟨p, List.mem_append_left _ (Option.mem_toList.2 rfl), hmerged.1⟩
      · rcases hall other hother with hnone | ⟨p, hp, hname⟩
        · exact Or.inl hnone
        · exact Or.inr ⟨p, List.mem_append_right _ hp, hname⟩

/-- A merge fails if that of an entry does. -/
theorem mergeEntries_refused {parent : String} {stored : Json.Map} {path : List String} {item : Item}
    {added : Json.Map} (h : ∀ entry ∈ added, Merges path item entry (mergeEntry parent stored entry))
    (hrefused : ∃ entry ∈ added, joined? (Assoc.find? item entry.1) entry.2 = none) :
    ∃ e, mergeEntries parent stored added = .error e ∧ Refusal e := by
  induction added with
  | nil =>
    obtain ⟨entry, hentry, -⟩ := hrefused
    exact absurd hentry List.not_mem_nil
  | cons entry rest ih =>
    rw [mergeEntries_cons]
    rcases h entry List.mem_cons_self with ⟨out, hout, hmerged⟩ | ⟨-, e, herror, he⟩
    · obtain ⟨other, hother, hnone⟩ := hrefused
      have hlater : other ∈ rest := by
        refine (List.mem_cons.1 hother).resolve_left ?_
        rintro rfl
        cases hnone.symm.trans hmerged.joined.choose_spec
      obtain ⟨e, hrest, he⟩ := ih (fun other hother => h other (List.mem_cons_of_mem _ hother))
        ⟨other, hlater, hnone⟩
      rw [hout, hrest]
      exact ⟨e, rfl, he⟩
    · rw [herror]
      exact ⟨e, rfl, he⟩

end Counters

/-! ## Setting what a merge brings -/

theorem setEntries_ofJsonMap (parent : List String) (entries : Json.Map) :
    setEntries parent (Attribute.ofJsonMap entries) = entries.flatMap fun p =>
      setAt (parent ++ [(unmark p.1).1]) (unmark p.1).2 (Attribute.ofJson p.2) := by
  rw [setEntries_eq_flatMap, Attribute.ofJsonMap_eq_map, List.flatMap_map]

section Brought

variable {added merged : Json.Map} (hsorted : Assoc.Sorted added)
  (hsub : (merged.map fun p => (unmark p.1).1).Sublist (Assoc.keys added))

include hsorted hsub

theorem perm_brought : (Assoc.ofList merged).Perm merged := by
  refine Assoc.perm_ofList (List.Nodup.of_map (fun name => (unmark name).1) ?_)
  rw [Assoc.keys, List.map_map]
  exact hsorted.nodup.sublist hsub

/-- Setting all that a merge brings joins the entries to an item. -/
theorem setEntries_joins {path : List String} {item : Item} (hitem : Assoc.Sorted item)
    (hbrought : ∀ p ∈ merged, ∃ entry ∈ added, Merged path item entry (some p))
    (hall : ∀ entry ∈ added, Merged path item entry none ∨ ∃ p ∈ merged, (unmark p.1).1 = entry.1) :
    ∃ after, (setEntries path (Attribute.ofJsonMap (Assoc.ofList merged))).foldlM
        (Assignment.applyAt path.length .set) item = .ok after ∧
      Counters.joinEntries item added = some after := by
  have htargets : (merged.map fun p => (unmark p.1).1).Nodup := hsorted.nodup.sublist hsub
  have hperm := perm_brought hsorted hsub
  have hgroups : ∀ p ∈ Assoc.ofList merged, ∃ new,
      Assignment.Changes path.length .set
          (setAt (path ++ [(unmark p.1).1]) (unmark p.1).2 (Attribute.ofJson p.2)) (unmark p.1).1
          (Assoc.find? item (unmark p.1).1) new ∧
        ∃ value, Assoc.find? added (unmark p.1).1 = some value ∧
          Counters.joined? (Assoc.find? item (unmark p.1).1) value = some new := by
    intro p hp
    obtain ⟨entry, hentry, hname, new, hchanges, hjoined⟩ := hbrought p (hperm.mem_iff.1 hp)
    rw [hname]
    exact ⟨new, hchanges, entry.2, Assoc.find?_of_mem hsorted.nodup hentry, hjoined⟩
  obtain ⟨after, hafter, hset, hkept, hordered⟩ :=
    Assignment.foldlM_changes ((hperm.map _).nodup_iff.2 htargets) hgroups
  rw [setEntries_ofJsonMap]
  refine ⟨after, hafter, (Counters.joins_iff hitem hsorted).1 ⟨hordered, ?_, ?_⟩⟩
  · intro name hnone
    refine hkept name fun hmem => ?_
    obtain ⟨p, hp, rfl⟩ := List.mem_map.1 hmem
    obtain ⟨new, -, value, hvalue, -⟩ := hset p hp
    cases hnone.symm.trans hvalue
  · intro name value hvalue
    rcases Classical.em (∃ p ∈ merged, (unmark p.1).1 = name) with ⟨p, hp, rfl⟩ | hnone
    · obtain ⟨new, hnew, value', hvalue', hjoined⟩ := hset p (hperm.mem_iff.2 hp)
      cases hvalue.symm.trans hvalue'
      exact ⟨new, hnew, hjoined⟩
    · obtain ⟨stored, hstored, hjoin⟩ :=
        (hall (name, value) (Assoc.mem_of_find? hvalue)).resolve_right hnone
      have hsame : Assoc.find? after name = Assoc.find? item name := by
        refine hkept name fun hmem => hnone ?_
        obtain ⟨p, hp, hname⟩ := List.mem_map.1 hmem
        exact ⟨p, hperm.mem_iff.1 hp, hname⟩
      refine ⟨stored, hsame.trans hstored, ?_⟩
      rw [show Assoc.find? item name = some stored from hstored]
      exact hjoin

end Brought

/-! ## Merging -/

/-- A new value is set whole: a map for its mark, and anything else in any case. -/
theorem setAt_newName {name : String} (hname : Unmarked name) (value : Json) (path : List String) :
    (unmark (Counters.newName name value)).1 = name ∧
      setAt path (unmark (Counters.newName name value)).2 (Attribute.ofJson value) =
        [⟨path, Attribute.ofJson value⟩] := by
  cases value with
  | map entries =>
    rw [Counters.newName, unmark_mark]
    exact ⟨rfl, setAt_whole path _⟩
  | _ =>
    rw [Counters.newName, unmark_of_not_suffix hname]
    · exact ⟨rfl, rfl⟩
    · exact fun _ he => nomatch he

/-- What has nothing stored to meet is brought as it is. -/
theorem merged_new {name : String} (hname : Unmarked name) (value : Json) {path : List String} {item : Item}
    (hnone : Assoc.find? item name = none) :
    Merged path item (name, value) (some (Counters.newName name value, value)) := by
  obtain ⟨htarget, hset⟩ := setAt_newName hname value (path ++ [name])
  refine ⟨htarget, Attribute.ofJson value, ?_, ?_⟩
  · rw [hset]
    refine Assignment.changes_last ?_ (newValue_set _ _)
    simp
  · rw [hnone]
    rfl

namespace Counters

/-- If each entry can be merged or joined no more than merged, so can all of them. -/
theorem mergeEntries_joins {added : Json.Map} (hsorted : Assoc.Sorted added) {field : String}
    {path : List String} {item : Item} (hitem : Assoc.Sorted item) {read : Json.Map}
    (hentries : ∀ entry ∈ added, Merges path item entry (mergeEntry field read entry)) :
    (∃ merged after, mergeEntries field read added = .ok merged ∧ joinEntries item added = some after ∧
      (setEntries path (Attribute.ofJsonMap (Assoc.ofList merged))).foldlM
        (Assignment.applyAt path.length .set) item = .ok after ∧ (Assoc.ofList merged).Perm merged) ∨
    joinEntries item added = none ∧ ∃ e, mergeEntries field read added = .error e ∧ Refusal e := by
  cases hjoin : joinEntries item added with
  | some joined =>
    have hall := fun entry hentry => (hentries entry hentry).resolve_right fun ⟨hnone, _⟩ => by
      cases hjoin.symm.trans (joinEntries_eq_none_iff.2 ⟨entry, hentry, hnone⟩)
    obtain ⟨merged, hmerged, hsub, hbrought, hall⟩ := mergeEntries_merged hall
    obtain ⟨after, hafter, hjoins⟩ := setEntries_joins hsorted hsub hitem hbrought hall
    cases hjoin.symm.trans hjoins
    exact Or.inl ⟨merged, joined, hmerged, rfl, hafter, perm_brought hsorted hsub⟩
  | none => exact Or.inr ⟨rfl, mergeEntries_refused hentries (joinEntries_eq_none_iff.1 hjoin)⟩

theorem join_of_kind {stored : Attribute} {value : Json}
    (h : ¬ (stored.kind = value.kind ∧ (value.kind = .number ∨ value.kind = .map))) :
    join stored value = none := by
  cases value <;> cases stored <;>
    first | rfl | exact absurd ⟨rfl, Or.inl rfl⟩ h | exact absurd ⟨rfl, Or.inr rfl⟩ h

theorem mergeValue_of_kind {stored value : Json}
    (h : ¬ (stored.kind = value.kind ∧ (value.kind = .number ∨ value.kind = .map))) (field : String) :
    ∃ e, mergeValue field stored value = .error e ∧ Refusal e := by
  cases value <;> cases stored <;>
    first | exact ⟨_, rfl, trivial⟩ | exact absurd ⟨rfl, Or.inl rfl⟩ h | exact absurd ⟨rfl, Or.inr rfl⟩ h

theorem kind_of_toJson {stored : Attribute} {json : Json} (h : stored.toJson = .ok json) :
    json.kind = stored.kind := by
  cases stored <;> simp only [Attribute.toJson] at h
  case number | list | map =>
    obtain ⟨_, -, h⟩ := bind_eq_ok.1 h
    cases h
    rfl
  all_goals
    cases h
    rfl

/-- The merge of a stored value, as that of the entry it has. -/
def mergedEntry (field name : String) (stored value : Json) : Result (Option (String × Json)) :=
  (mergeValue field stored value).map fun merged? => merged?.map fun merged => (name, merged)

theorem mergeEntry_of_find? {parent : String} {read : Json.Map} {entry : String × Json} {current : Json}
    (h : Assoc.find? read entry.1 = some current) :
    mergeEntry parent read entry = mergedEntry (fieldPath parent entry.1) entry.1 current entry.2 := by
  rw [mergeEntry, h, mergedEntry]
  show (mergeValue _ current entry.2 >>= _) = _
  cases mergeValue (fieldPath parent entry.1) current entry.2 <;> rfl

section Value

variable {field name : String} (hname : Unmarked name) {path : List String} {item : Item} {stored : Attribute}
  (hstored : Assoc.find? item name = some stored) {json : Json} (hjson : stored.toJson = .ok json)

include hstored hjson

theorem merges_of_kind {value : Json}
    (h : ¬ (stored.kind = value.kind ∧ (value.kind = .number ∨ value.kind = .map))) :
    Merges path item (name, value) (mergedEntry field name json value) := by
  obtain ⟨e, herror, he⟩ := mergeValue_of_kind (kind_of_toJson hjson ▸ h) field
  refine Or.inr ⟨?_, e, ?_, he⟩
  · rw [hstored]
    exact join_of_kind h
  · rw [mergedEntry, herror]
    rfl

include hname

/-- The merge of a number with a number brings their sum, if it is finite. -/
theorem merges_number (hkind : stored.kind = .number) (added : Number) :
    Merges path item (name, .number added) (mergedEntry field name json (.number added)) := by
  cases stored <;> try cases hkind
  rename_i text
  rw [Attribute.toJson] at hjson
  obtain ⟨current, hcurrent, hjson⟩ := bind_eq_ok.1 hjson
  cases hjson
  have htext : Number.ofText? text = some current := by
    unfold Attribute.readNumber at hcurrent
    split at hcurrent
    · rename_i n hn
      cases hcurrent
      exact hn
    · cases hcurrent
  have hjoined : joined? (Assoc.find? item name) (.number added) =
      (current.add? added).map fun total => .number total.text := by
    rw [hstored]
    show ((do let current ← Number.ofText? text; let total ← current.add? added; pure total.text) :
      Option String).map Attribute.number = _
    rw [htext]
    show ((current.add? added).bind _).map _ = _
    cases current.add? added <;> rfl
  rw [mergedEntry, mergeValue, sum]
  cases htotal : current.add? added with
  | none => exact Or.inr ⟨by rw [hjoined, htotal]; rfl, _, rfl, trivial⟩
  | some total =>
    refine Or.inl ⟨some (name, .number total), rfl, congrArg Prod.fst (unmark_of_not_suffix hname), _, ?_,
      by rw [hjoined, htotal]; rfl⟩
    rw [unmark_of_not_suffix hname]
    refine Assignment.changes_last ?_ (newValue_set _ _)
    simp

end Value

/-- The merge of a map with a map brings what its entries bring, if none is refused. -/
theorem merges_map {field name : String} (hname : Unmarked name) {path : List String} {item entries : Item}
    (hstored : Assoc.find? item name = some (.map entries)) (hsorted : Assoc.Sorted entries) {added : Json.Map}
    (hadded : Assoc.Sorted added) {read : Json.Map}
    (hentries : ∀ entry ∈ added, Merges (path ++ [name]) entries entry (mergeEntry field read entry)) :
    Merges path item (name, .map added) (mergedEntry field name (.map read) (.map added)) := by
  have hjoin : joined? (Assoc.find? item name) (.map added) = (joinEntries entries added).map .map := by
    rw [hstored]
    rfl
  rw [mergedEntry, mergeValue]
  rcases mergeEntries_joins hadded hsorted hentries with
    ⟨merged, after, hmerged, hjoined, hafter, hperm⟩ | ⟨hnone, e, herror, he⟩
  · rw [hmerged]
    refine Or.inl ⟨_, rfl, ?_⟩
    cases merged with
    | nil =>
      cases hafter
      refine ⟨.map entries, hstored, ?_⟩
      rw [join, hjoined]
      rfl
    | cons p rest =>
      have hnonempty : (Attribute.ofJsonMap (Assoc.ofList (p :: rest))).isEmpty = false := by
        cases hempty : Assoc.ofList (p :: rest) with
        | nil => cases List.nil_perm.1 (hempty ▸ hperm)
        | cons q others => rfl
      refine ⟨congrArg Prod.fst (unmark_of_not_suffix hname), .map after, ?_, by rw [hjoin, hjoined]; rfl⟩
      rw [unmark_of_not_suffix hname, hstored]
      show Assignment.Changes path.length .set
        (setAt (path ++ [name]) false (.map (Attribute.ofJsonMap (Assoc.ofList (p :: rest))))) _ _ _
      rw [setAt, hnonempty]
      rw [List.length_append, List.length_singleton] at hafter
      exact Assignment.changes_nested (fun _ ha => below_of_mem_setEntries ha) hafter
  · rw [herror]
    exact Or.inr ⟨by rw [hjoin, hnone]; rfl, e, rfl, he⟩

/-- The merge of an entry is that of the value it meets, or brings it as it is. -/
theorem mergeEntry_merges {parent : String} {path : List String} {item : Item} {read : Json.Map}
    (hread : Attribute.toJsonMap item = .ok read) {entry : String × Json} (hname : Unmarked entry.1)
    (hvalue : ∀ current json, Assoc.find? item entry.1 = some current → current.toJson = .ok json →
      Merges path item entry (mergedEntry (fieldPath parent entry.1) entry.1 json entry.2)) :
    Merges path item entry (mergeEntry parent read entry) := by
  rcases Attribute.find?_toJsonMap hread entry.1 with
    ⟨hnone, hmissing⟩ | ⟨current, json, hcurrent, hjson, hfound⟩
  · refine Or.inl ⟨_, ?_, merged_new hname entry.2 hnone⟩
    rw [mergeEntry, hmissing]
    rfl
  · rw [mergeEntry_of_find? hfound]
    exact hvalue current json hcurrent hjson

/-- A merge of counters with a stored value brings what joins them, or is refused. -/
theorem mergeValue_merges {value : Json} (hordered : value.Ordered) (hnames : value.Named Unmarked)
    {field name : String} (hname : Unmarked name) {path : List String} {item : Item} {stored : Attribute}
    (hstored : Assoc.find? item name = some stored) (hinner : stored.Ordered) {json : Json}
    (hjson : stored.toJson = .ok json) :
    Merges path item (name, value) (mergedEntry field name json value) := by
  induction value using Json.tree_induction generalizing field name path item stored json with
  | leaf value hleaf =>
    by_cases hkind : stored.kind = value.kind ∧ (value.kind = .number ∨ value.kind = .map)
    · obtain ⟨hsame, hnumber | hmap⟩ := hkind
      · cases value <;> try cases hnumber
        exact merges_number hname hstored hjson hsame _
      · cases value <;> try cases hmap
        exact absurd rfl (hleaf _)
    · exact merges_of_kind hstored hjson hkind
  | map added ih =>
    by_cases hkind : stored.kind = .map
    · cases stored <;> try cases hkind
      rename_i entries
      obtain ⟨read, hread, rfl⟩ := Attribute.toJson_map_eq_ok.1 hjson
      have hentries : ∀ entry ∈ added, Merges (path ++ [name]) entries entry (mergeEntry field read entry) := by
        intro entry hentry
        have hvalue := Assoc.find?_of_mem hordered.sorted.nodup hentry
        have hentryNames := hnames.inner hvalue
        exact mergeEntry_merges hread hentryNames.1 fun current json hcurrent hjson =>
          ih entry hentry (hordered.inner hvalue) hentryNames.2 hentryNames.1 hcurrent (hinner.inner hcurrent)
            hjson
      exact merges_map hname hstored hinner.sorted hordered.sorted hentries
    · exact merges_of_kind hstored hjson fun hboth => hkind hboth.1

end Counters

section Merge

variable {stored added : Json.Map} {data : Item} (hread : Attribute.toJsonMap data = .ok stored)
  (hne : data ≠ []) (hdata : (Attribute.map data).Ordered) {path? : Option String}
  (hordered : (Json.map (Counters.nest path? added)).Ordered)
  (hnames : (Json.map (Counters.nest path? added)).Named Unmarked)

include hread hne hdata hordered hnames

/-- Setting what the merge of counters with stored ones brings joins them, or the merge is refused since they
clash. -/
theorem merge_joins (path : List String) :
    (∃ merged after, Counters.merge stored added path? = .ok merged ∧
      Counters.joinEntries data (Counters.nest path? added) = some after ∧
      (setEntries path (Attribute.ofJsonMap merged)).foldlM (Assignment.applyAt path.length .set) data =
        .ok after) ∨
    Counters.joinEntries data (Counters.nest path? added) = none ∧
      ∃ e, Counters.merge stored added path? = .error e ∧ Counters.Refusal e := by
  have hentries : ∀ entry ∈ Counters.nest path? added,
      Counters.Merges path data entry (Counters.mergeEntry "" stored entry) := by
    intro entry hentry
    have hvalue := Assoc.find?_of_mem hordered.sorted.nodup hentry
    have hentryNames := hnames.inner hvalue
    exact Counters.mergeEntry_merges hread hentryNames.1 fun current json hcurrent hjson =>
      Counters.mergeValue_merges (hordered.inner hvalue) hentryNames.2 hentryNames.1 hcurrent
        (hdata.inner hcurrent) hjson
  have hempty : stored.isEmpty = false := by
    rw [Attribute.isEmpty_of_toJsonMap hread]
    simpa using hne
  rw [Counters.merge, hempty]
  rcases Counters.mergeEntries_joins hordered.sorted hdata.sorted hentries with
    ⟨merged, after, hmerged, hjoined, hafter, -⟩ | ⟨hnone, e, herror, he⟩
  · exact Or.inl ⟨Assoc.ofList merged, after, by rw [hmerged]; rfl, hjoined, hafter⟩
  · exact Or.inr ⟨hnone, e, by rw [herror]; rfl, he⟩

/-- Setting what the merge of counters with stored ones that they fit brings raises them. -/
theorem merge_raises (hintegral : (Json.map (Counters.nest path? added)).Integral)
    (hfits : Fits (some (.map data)) (.map (Counters.nest path? added))) (path : List String) :
    ∃ merged after, Counters.merge stored added path? = .ok merged ∧
      (setEntries path (Attribute.ofJsonMap merged)).foldlM (Assignment.applyAt path.length .set) data =
        .ok after ∧
      Raises (some (.map data)) (.map (Counters.nest path? added)) (.map after) := by
  obtain ⟨new, hnew, hraises⟩ := Counters.join_raises hordered hintegral hfits
  obtain ⟨joined, hjoined, rfl⟩ := Option.map_eq_some_iff.1 hnew
  rcases merge_joins hread hne hdata hordered hnames path with
    ⟨merged, after, hmerged, hafter, hset⟩ | ⟨hnone, -⟩
  · cases hafter.symm.trans hjoined
    exact ⟨merged, _, hmerged, hset, hraises⟩
  · cases hnone.symm.trans hjoined

end Merge

end KeyedRecords
