import KeyedRecords.Proofs.Store.Answer
import KeyedRecords.Proofs.Update.Texts

/-! The keys that items lie under and those that they carry, in a store that is written to directly. An item is put
under the key that it carries, but an update can set a key attribute and leaves the item where it is. Main statements:
`Memory.keyed_answer_iff`, `Memory.keyed_throughout_iff`. -/

namespace KeyedRecords

inductive TableWrite where
  | put (item : Item) (condition? : Option Precondition)
  | update (key : Key) (change : Update) (condition? : Option Precondition)
  | delete (key : Key)

namespace TableWrite

def call (layout : TableLayout) : TableWrite → Call
  | .put item condition? => .putItem layout item condition?
  | .update key change condition? => .updateItem layout key change condition?
  | .delete key => .deleteItem layout key

/-- Whether a write to a store, if it is an update that succeeds, sets key attributes last to the key of the item. -/
def Retains (layout : TableLayout) (memory : Memory) : TableWrite → Prop
  | .update key change condition? =>
    (∃ item, (memory.answer (.updateItem layout key change condition?)).1 = .ok item) →
      layout.Retains key change
  | .put .. | .delete _ => True

end TableWrite

namespace Memory

variable {layout : TableLayout} {memory : Memory}

/-- The store after some writes, those that fail included. -/
def written (memory : Memory) (layout : TableLayout) (writes : List TableWrite) : Memory :=
  writes.foldl (fun memory write => (memory.answer (write.call layout)).2) memory

theorem keyed_iff_items (hsorted : memory.Sorted) : layout.Keyed (memory.contents layout.table) ↔
    ∀ key item, memory.item? layout key = some item → layout.keyOf? item = some key :=
  ⟨fun h key item hitem => h key item (Assoc.mem_of_find? hitem),
    fun h key item hmem => h key item (Assoc.find?_of_mem (hsorted _).nodup hmem)⟩

section Keyed

variable (hsorted : memory.Sorted) (hkeyed : layout.Keyed (memory.contents layout.table))

include hsorted hkeyed

theorem keyed_store_iff {key : Key} {item : Item} :
    layout.Keyed ((memory.store layout key item).contents layout.table) ↔ layout.keyOf? item = some key := by
  rw [keyed_iff_items (hsorted.store layout key item)]
  constructor
  · intro h
    exact h key item (item?_store_self memory layout key item)
  · exact fun hitem => holds_store ((keyed_iff_items hsorted).1 hkeyed) hitem

/-- A write leaves all items under the keys that they carry exactly if it retains the key of an item that it
updates. -/
theorem keyed_answer_iff (hnames : layout.partitionName ≠ layout.sortName) (write : TableWrite) :
    layout.Keyed ((memory.answer (write.call layout)).2.contents layout.table) ↔ write.Retains layout memory := by
  have hcounted : (memory.counted (write.call layout).kind).Sorted := hsorted
  cases write with
  | put item condition? =>
    refine iff_of_true ?_ trivial
    refine of_replies (P := fun _ after => layout.Keyed (after.contents layout.table)) fun reply after hreplies => ?_
    cases hreplies with
    | notPut => exact hkeyed
    | put hkey _ => exact (keyed_store_iff hcounted hkeyed).2 hkey
  | delete key =>
    refine iff_of_true ?_ trivial
    refine of_replies (P := fun _ after => layout.Keyed (after.contents layout.table)) fun reply after hreplies => ?_
    cases hreplies with
    | missing => exact hkeyed
    | deleted =>
      exact (keyed_iff_items (hcounted.remove layout key)).2 (holds_remove ((keyed_iff_items hcounted).1 hkeyed) key)
  | update key change condition? =>
    refine of_replies (P := fun reply after => layout.Keyed (after.contents layout.table) ↔
      ((∃ item, reply = .ok item) → layout.Retains key change)) fun reply after hreplies => ?_
    cases hreplies with
    | notUpdated => exact iff_of_true hkeyed fun ⟨_, h⟩ => nomatch h
    | updated _ happly =>
      -- An item that the update makes begins as its key attributes.
      have hbefore : layout.keyOf? (((memory.counted .updateItem).item? layout key).getD (layout.keyItem key)) =
          some key := by
        cases hitem : (memory.counted .updateItem).item? layout key with
        | none => exact TableLayout.keyOf?_keyItem hnames key
        | some item => exact (keyed_iff_items hcounted).1 hkeyed key item hitem
      calc layout.Keyed _ ↔ layout.keyOf? _ = some key := keyed_store_iff hcounted hkeyed
        _ ↔ layout.Retains key change := TableLayout.keyOf?_update_iff hbefore happly
        _ ↔ _ := ⟨fun h _ => h, fun h => h ⟨_, rfl⟩⟩

theorem keyed_written_iff (hnames : layout.partitionName ≠ layout.sortName) (writes : List TableWrite) :
    (∀ front, front <+: writes → layout.Keyed ((memory.written layout front).contents layout.table)) ↔
      ∀ front write, front ++ [write] <+: writes → write.Retains layout (memory.written layout front) := by
  induction writes generalizing memory with
  | nil =>
    constructor
    · intro _ front write h
      simp at h
    · intro _ front h
      cases List.prefix_nil.1 h
      exact hkeyed
  | cons first rest ih =>
    have hfirst := keyed_answer_iff hsorted hkeyed hnames first
    have hafter : (memory.answer (first.call layout)).2.Sorted := by
      have hcounted : (memory.counted (first.call layout).kind).Sorted := hsorted
      exact hcounted.reply _
    constructor
    · intro h front write hfront
      have hnext := h [first] (List.prefix_append [first] rest)
      cases front with
      | nil =>
        cases (List.cons_prefix_cons.1 hfront).1
        exact hfirst.1 hnext
      | cons head front =>
        obtain ⟨rfl, hrest⟩ := List.cons_prefix_cons.1 hfront
        exact (ih hafter hnext).1 (fun own hown => h (head :: own) (List.cons_prefix_cons.2 ⟨rfl, hown⟩))
          front write hrest
    · intro h front hfront
      cases front with
      | nil => exact hkeyed
      | cons head front =>
        obtain ⟨rfl, hrest⟩ := List.cons_prefix_cons.1 hfront
        have hnext := hfirst.2 (h [] head (List.prefix_append [head] rest))
        exact (ih hafter hnext).2 (fun own write hown => h (head :: own) write (List.cons_prefix_cons.2 ⟨rfl, hown⟩))
          front hrest

end Keyed

/-- From an empty store on, all items lie under the keys that they carry as long as each update that succeeds sets the
key attributes of its item, if it sets them, last to the key, and no longer. -/
theorem keyed_throughout_iff (hnames : layout.partitionName ≠ layout.sortName) (writes : List TableWrite) :
    (∀ front, front <+: writes → layout.Keyed ((Memory.written {} layout front).contents layout.table)) ↔
      ∀ front write, front ++ [write] <+: writes → write.Retains layout (Memory.written {} layout front) :=
  keyed_written_iff sorted_empty (fun _ _ h => absurd h List.not_mem_nil) hnames writes

/-- Puts an item and moves it to another partition, as its own attribute has it. -/
def strayWrites : List TableWrite :=
  [.put [("pk", .string "p"), ("sk", .string "s")] none,
    .update ⟨"p", "s"⟩ ⟨.set, [⟨["pk"], .string "q"⟩]⟩ none]

/-- The item is still stored under its first key. -/
theorem keyed_throughout_iff_stray :
    Memory.item? (Memory.written {} { table := "t" } strayWrites) { table := "t" } ⟨"p", "s"⟩ =
      some [("pk", .string "q"), ("sk", .string "s")] ∧
    ¬ ∀ front, front <+: strayWrites → TableLayout.Keyed { table := "t" }
      ((Memory.written {} { table := "t" } front).contents "t") := by
  refine ⟨rfl, fun h => ?_⟩
  have hretains := (@keyed_throughout_iff { table := "t" } (by decide) strayWrites).1 h
    [.put [("pk", .string "p"), ("sk", .string "s")] none] (.update ⟨"p", "s"⟩ ⟨.set, [⟨["pk"], .string "q"⟩]⟩ none)
    (List.prefix_refl _) ⟨_, rfl⟩
  exact absurd (hretains.partition (.string "q") rfl) (by decide)

end Memory

end KeyedRecords
