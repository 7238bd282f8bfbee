import KeyedRecords.Proofs.Layout
import KeyedRecords.Proofs.Lists
import KeyedRecords.Records.Basic
import KeyedRecords.Update.Application

/-! What the update of a record does to its item: each written field takes the place of the old one in the
data, whole, and the key stays. Main statement: `apply_updateItem`. -/

namespace KeyedRecords

/-! ## Marked names -/

theorem unmark_mark (name : String) : unmark (name ++ replaceMark) = (name, true) := by
  have hmark : (name ++ replaceMark).toList.reverse = '$' :: ':' :: name.toList.reverse := by
    simp [replaceMark]
  rw [unmark, hmark]
  simp

theorem mark_injective {name other : String} (h : name ++ replaceMark = other ++ replaceMark) :
    name = other := by
  have hunmark := congrArg unmark h
  rw [unmark_mark, unmark_mark] at hunmark
  exact congrArg Prod.fst hunmark

theorem unmark_of_not_suffix {name : String} (h : ¬ replaceMark.toList <:+ name.toList) :
    unmark name = (name, false) := by
  simp only [unmark]
  split
  · rename_i front hfront
    refine absurd ⟨front.reverse, ?_⟩ h
    have hreverse := congrArg List.reverse hfront
    simpa [replaceMark] using hreverse.symm
  · rfl

/-- Some entries under marked names. -/
def marked (data : Item) : Item := data.map fun (name, value) => (name ++ replaceMark, value)

theorem find?_marked (data : Item) (name : String) :
    Assoc.find? (marked data) (name ++ replaceMark) = Assoc.find? data name := by
  induction data with
  | nil => rfl
  | cons p data ih =>
    have hiff : p.1 ++ replaceMark = name ++ replaceMark ↔ p.1 = name :=
      ⟨mark_injective, fun h => by rw [h]⟩
    simp only [marked, List.map_cons, Assoc.find?, hiff] at ih ⊢
    rw [ih]

theorem nodup_marked {data : Item} (h : (Assoc.keys data).Nodup) : (Assoc.keys (marked data)).Nodup := by
  have hkeys : Assoc.keys (marked data) = (Assoc.keys data).map (· ++ replaceMark) := by
    simp [Assoc.keys, marked]
  rw [hkeys]
  exact List.Pairwise.map _ (fun _ _ hne he => hne (mark_injective he)) h

/-- The entries under the names that stand behind the marks. -/
def unmarked (entries : Item) : Item := entries.map fun (name, value) => ((unmark name).1, value)

theorem find?_unmarked {entries : Item} (h : ∀ p ∈ entries, ∃ name, p.1 = name ++ replaceMark)
    (name : String) : Assoc.find? (unmarked entries) name = Assoc.find? entries (name ++ replaceMark) := by
  induction entries with
  | nil => rfl
  | cons p entries ih =>
    obtain ⟨own, hown⟩ := h p List.mem_cons_self
    have hiff : (unmark p.1).1 = name ↔ p.1 = name ++ replaceMark := by
      rw [hown, unmark_mark]
      exact ⟨fun h => by rw [← h], mark_injective⟩
    have hrest := ih fun q hq => h q (List.mem_cons_of_mem _ hq)
    simp only [unmarked, List.map_cons, Assoc.find?, hiff] at hrest ⊢
    rw [hrest]

theorem nodup_unmarked {entries : Item} (h : ∀ p ∈ entries, ∃ name, p.1 = name ++ replaceMark)
    (hnodup : (Assoc.keys entries).Nodup) : (Assoc.keys (unmarked entries)).Nodup := by
  refine List.pairwise_map.2 (List.pairwise_map.2 ((List.pairwise_map.1 hnodup).imp_of_mem ?_))
  intro p q hp hq hne he
  obtain ⟨name, hname⟩ := h p hp
  obtain ⟨other, hother⟩ := h q hq
  refine hne ?_
  simp only [hname, hother, unmark_mark] at he ⊢
  rw [he]

/-! ## Assignments below the data -/

theorem setAt_whole (path : List String) (value : Attribute) : setAt path true value = [⟨path, value⟩] := by
  cases value <;> simp [setAt]

theorem setEntries_eq_flatMap (parent : List String) (entries : Item) :
    setEntries parent entries = entries.flatMap fun entry =>
      setAt (parent ++ [(unmark entry.1).1]) (unmark entry.1).2 entry.2 :=
  eq_flatMap rfl (fun _ _ => rfl) entries

theorem newValue_set (assignment : Assignment) (current? : Option Attribute) :
    assignment.newValue .set current? = .ok assignment.value := rfl

/-- Entries under marked names are set one by one in the map of the data. -/
theorem foldlM_setEntries {dataName : String} {entries : Item}
    (h : ∀ p ∈ entries, ∃ name, p.1 = name ++ replaceMark) {item data : Item}
    (hdata : Assoc.find? item dataName = some (.map data)) :
    ∃ after, (setEntries [dataName] entries).foldlM (Assignment.apply .set) item = .ok after ∧
      Assoc.find? after dataName = some (.map (Assoc.overlay data (unmarked entries))) ∧
      ∀ name, name ≠ dataName → Assoc.find? after name = Assoc.find? item name := by
  induction entries generalizing item data with
  | nil => exact ⟨item, rfl, hdata, fun _ _ => rfl⟩
  | cons p entries ih =>
    obtain ⟨name, value⟩ := p
    obtain ⟨own, hown⟩ := h _ List.mem_cons_self
    have hunmark : unmark name = (own, true) := by rw [show name = own ++ replaceMark from hown, unmark_mark]
    have hstep : Assignment.apply .set item ⟨[dataName, own], value⟩ =
        .ok (Assoc.insert item dataName (.map (Assoc.insert data own value))) := by
      simp only [Assignment.apply, Assignment.applyBelow, hdata, newValue_set]
      rfl
    obtain ⟨after, hrun, hafter, hothers⟩ := ih (fun q hq => h q (List.mem_cons_of_mem _ hq))
      (Assoc.find?_insert_self item dataName (.map (Assoc.insert data own value)))
    refine ⟨after, ?_, ?_, fun other hother => ?_⟩
    · simp only [setEntries, hunmark, setAt_whole, List.cons_append, List.nil_append, List.foldlM_cons,
        hstep]
      exact hrun
    · rw [hafter]
      simp [unmarked, Assoc.overlay, hunmark]
    · rw [hothers other hother, Assoc.find?_insert_of_ne _ _ hother]

/-! ## The update of a record -/

section UpdateItem

variable {layout : TableLayout} (hnames : layout.WellNamed)
  (hmark : ¬ replaceMark.toList <:+ layout.dataName.toList) {written : Item}
  (hnodup : (Assoc.keys written).Nodup) (time : String)

include hnames hmark hnodup

/-- The assignments of an update of a record, which come in one order or the other. -/
theorem set_updateItem :
    (Update.set (Records.updateItem layout written time)).assignments =
        setEntries [layout.dataName] (Assoc.ofList (marked written)) ++ [⟨[updatedName], .string time⟩] ∨
      (Update.set (Records.updateItem layout written time)).assignments =
        ⟨[updatedName], .string time⟩ :: setEntries [layout.dataName] (Assoc.ofList (marked written)) := by
  have hdata := unmark_of_not_suffix hmark
  have hstamp : unmark updatedName = (updatedName, false) := by decide
  cases written with
  | nil => exact Or.inl rfl
  | cons p rest =>
    have hnonempty : (Assoc.ofList (marked (p :: rest))).isEmpty = false := by
      have hmarked : marked (p :: rest) ≠ [] := by simp [marked]
      simpa using Assoc.ofList_ne_nil hmarked
    have hitem : Records.updateItem layout (p :: rest) time =
        Assoc.insert [(updatedName, .string time)] layout.dataName
          (.map (Assoc.ofList (marked (p :: rest)))) := rfl
    rw [hitem, Assoc.insert]
    split
    · left
      simp [Update.set, setEntries, hdata, hstamp, setAt, hnonempty]
    · right
      rw [if_neg (Ne.symm hnames.updated.2.2)]
      simp [Update.set, Assoc.insert, setEntries, hdata, hstamp, setAt, hnonempty]

/-- An update of a record can be made whenever there is data. It writes over the given fields of the data and
leaves the others and the key as they are. -/
theorem apply_updateItem {item data : Item} (hdata : layout.dataOf? item = some data) :
    ∃ after updated, (Update.set (Records.updateItem layout written time)).apply item = .ok after ∧
      layout.keyOf? after = layout.keyOf? item ∧ layout.dataOf? after = some updated ∧
      (Assoc.Sorted data → Assoc.Sorted updated) ∧
      ∀ name, Assoc.find? updated name = (Assoc.find? written name).or (Assoc.find? data name) := by
  have hmarks : ∀ p ∈ Assoc.ofList (marked written), ∃ name, p.1 = name ++ replaceMark := by
    intro p hp
    obtain ⟨q, -, rfl⟩ := List.mem_map.1 (Assoc.mem_ofList hp)
    exact ⟨q.1, rfl⟩
  have hsorted := Assoc.sorted_ofList (marked written)
  have hunmarked : ∀ name, Assoc.find? (Assoc.overlay data (unmarked (Assoc.ofList (marked written)))) name
      = (Assoc.find? written name).or (Assoc.find? data name) := by
    intro name
    rw [Assoc.find?_overlay data (nodup_unmarked hmarks hsorted.nodup), find?_unmarked hmarks,
      Assoc.find?_ofList (nodup_marked hnodup), find?_marked]
  have hitem := TableLayout.dataOf?_eq_some_iff.1 hdata
  rcases set_updateItem hnames hmark hnodup time with hset | hset
  · obtain ⟨after, hrun, hafter, hothers⟩ := foldlM_setEntries hmarks hitem
    refine ⟨Assoc.insert after updatedName (.string time), _, ?_, ?_, ?_, fun h => Assoc.sorted_overlay h _, hunmarked⟩
    · rw [Update.apply, hset, List.foldlM_append]
      exact bind_eq_ok.2 ⟨after, hrun, rfl⟩
    · rw [TableLayout.keyOf?_stamped hnames time after]
      exact TableLayout.keyOf?_congr (hothers _ (Ne.symm hnames.data_partition))
        (hothers _ (Ne.symm hnames.data_sort))
    · rw [TableLayout.dataOf?_stamped hnames time after]
      exact TableLayout.dataOf?_eq_some_iff.2 hafter
  · have hstamped := (Assoc.find?_insert_of_ne item (.string time) hnames.updated.2.2).trans hitem
    obtain ⟨after, hrun, hafter, hothers⟩ := foldlM_setEntries hmarks hstamped
    refine ⟨after, _, ?_, ?_, TableLayout.dataOf?_eq_some_iff.2 hafter, fun h => Assoc.sorted_overlay h _, hunmarked⟩
    · rw [Update.apply, hset]
      exact hrun
    · rw [← TableLayout.keyOf?_stamped hnames time item]
      exact TableLayout.keyOf?_congr (hothers _ (Ne.symm hnames.data_partition))
        (hothers _ (Ne.symm hnames.data_sort))

end UpdateItem

end KeyedRecords
