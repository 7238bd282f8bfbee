import KeyedRecords.Proofs.Counters.Added
import Mathlib.Algebra.BigOperators.Group.List.Basic

/-! Counters that are raised by one tree after another end at the sums of all that was added, whatever the order of
the trees. Main statements: `Totals.snoc`, `Totals.perm`, `Totals.unique`. -/

namespace KeyedRecords

open Attribute (Node nodeIn nodeAt_entry)

def totalAt (deltas : List Json) (path : List String) : Int :=
  (deltas.map fun delta => delta.amountAt path).sum

/-- The sum of the absolute amounts that some trees of counters add at a path. -/
def movementAt (deltas : List Json) (path : List String) : Nat :=
  (deltas.map fun delta => (delta.amountAt path).natAbs).sum

/-- Whether a tree is another one with all of some trees of counters added: the exact sum at the path of each
counter, their maps, and the rest as it was. -/
structure Totals (before? : Option Attribute) (deltas : List Json) (after : Attribute) : Prop where
  counters : ∀ path, ∀ delta ∈ deltas, ∀ n, delta.integerAt? path = some n →
    after.nodeAt path =
      some (.leaf (.number (toString (Node.amount (nodeIn before? path) + totalAt deltas path))))
  maps : ∀ path, ∀ delta ∈ deltas, ∀ entries, delta.valueAt path = some (.map entries) →
    after.nodeAt path = some .map
  others : ∀ path, (∀ delta ∈ deltas, delta.valueAt path = none) → after.nodeAt path = nodeIn before? path

/-- Whether some trees of counters can be added to a tree one after another: they hold integers only, each fits the
tree, no field is a number in one of them and a map in another, and what they move at a path stays in range. -/
structure Addable (stored? : Option Attribute) (deltas : List Json) : Prop where
  integral : ∀ delta ∈ deltas, delta.Integral
  fits : ∀ delta ∈ deltas, Fits stored? delta
  consistent : ∀ delta ∈ deltas, ∀ other ∈ deltas, ∀ path n entries, delta.integerAt? path = some n →
    other.valueAt path ≠ some (.map entries)
  bounded : ∀ path, ∀ delta ∈ deltas, ∀ n, delta.integerAt? path = some n →
    (Node.amount (nodeIn stored? path)).natAbs + movementAt deltas path ≤ greatestCounter

/-! ## Sums -/

theorem totalAt_append (deltas others : List Json) (path : List String) :
    totalAt (deltas ++ others) path = totalAt deltas path + totalAt others path := by
  simp [totalAt]

theorem totalAt_singleton (delta : Json) (path : List String) :
    totalAt [delta] path = delta.amountAt path := by
  simp [totalAt]

theorem totalAt_perm {deltas others : List Json} (h : deltas.Perm others) (path : List String) :
    totalAt deltas path = totalAt others path := (h.map _).sum_eq

theorem movementAt_append (deltas others : List Json) (path : List String) :
    movementAt (deltas ++ others) path = movementAt deltas path + movementAt others path := by
  simp [movementAt]

theorem movementAt_cons (delta : Json) (deltas : List Json) (path : List String) :
    movementAt (delta :: deltas) path = (delta.amountAt path).natAbs + movementAt deltas path := rfl

theorem movementAt_perm {deltas others : List Json} (h : deltas.Perm others) (path : List String) :
    movementAt deltas path = movementAt others path := (h.map _).sum_eq

theorem natAbs_totalAt_le (deltas : List Json) (path : List String) :
    (totalAt deltas path).natAbs ≤ movementAt deltas path := by
  induction deltas with
  | nil => exact Nat.zero_le _
  | cons delta deltas ih =>
    have hcons : totalAt (delta :: deltas) path = delta.amountAt path + totalAt deltas path := rfl
    rw [hcons, movementAt_cons]
    omega

theorem natAbs_amountAt_le {deltas : List Json} {delta : Json} (h : delta ∈ deltas) (path : List String) :
    (delta.amountAt path).natAbs ≤ movementAt deltas path :=
  List.single_le_sum (fun _ _ => Nat.zero_le _) _ (List.mem_map_of_mem h)

theorem Json.amountAt_of_integerAt? {value : Json} {path : List String} {n : Int}
    (h : value.integerAt? path = some n) : value.amountAt path = n := by
  rw [amountAt, h]
  rfl

/-- Trees fit a tree if their counters meet integers or nothing, their maps maps or nothing, and what all of them
move stays in range. -/
theorem Addable.of_nodes {stored? : Option Attribute} {deltas : List Json}
    (hintegral : ∀ delta ∈ deltas, delta.Integral)
    (hintegers : ∀ delta ∈ deltas, ∀ path n, delta.integerAt? path = some n →
      ∀ node, nodeIn stored? path = some node → node.integer?.isSome)
    (hmaps : ∀ delta ∈ deltas, ∀ path entries, delta.valueAt path = some (.map entries) →
      ∀ node, nodeIn stored? path = some node → node = .map)
    (hconsistent : ∀ delta ∈ deltas, ∀ other ∈ deltas, ∀ path n entries, delta.integerAt? path = some n →
      other.valueAt path ≠ some (.map entries))
    (hbounded : ∀ delta ∈ deltas, ∀ path n, delta.integerAt? path = some n →
      (Node.amount (nodeIn stored? path)).natAbs + movementAt deltas path ≤ greatestCounter) :
    Addable stored? deltas where
  integral := hintegral
  fits delta hdelta := by
    refine ⟨fun path n hn => ⟨hintegers delta hdelta path n hn, ?_⟩, hmaps delta hdelta⟩
    have hmoved := natAbs_amountAt_le hdelta path
    have hbound := hbounded delta hdelta path n hn
    rw [Json.amountAt_of_integerAt? hn] at hmoved
    omega
  consistent := hconsistent
  bounded path delta hdelta n hn := hbounded delta hdelta path n hn

theorem Json.amountAt_of_none {value : Json} {path : List String} (h : value.valueAt path = none) :
    value.amountAt path = 0 := by
  rw [amountAt, integerAt?, h]
  rfl

theorem totalAt_of_none {deltas : List Json} {path : List String}
    (h : ∀ delta ∈ deltas, delta.valueAt path = none) : totalAt deltas path = 0 := by
  refine List.sum_eq_zero fun n hn => ?_
  obtain ⟨delta, hdelta, rfl⟩ := List.mem_map.1 hn
  exact Json.amountAt_of_none (h delta hdelta)

/-! ## What trees of counters say of a path -/

/-- A tree of counters has nothing at a path, a map or a counter. -/
theorem Json.Integral.at_path {value : Json} (h : value.Integral) (path : List String) :
    value.valueAt path = none ∨ (∃ entries, value.valueAt path = some (.map entries)) ∨
      ∃ n, value.integerAt? path = some n := by
  cases hvalue : value.valueAt path with
  | none => exact Or.inl rfl
  | some found =>
    rcases h path found hvalue with ⟨entries, rfl⟩ | ⟨n, inRange, rfl⟩
    · exact Or.inr (Or.inl ⟨entries, rfl⟩)
    · exact Or.inr (Or.inr ⟨n, Json.integerAt?_eq_some.2 ⟨inRange, hvalue⟩⟩)

/-- Trees of counters have nothing at a path, or one has a map there, or one has a counter there. -/
theorem integral_at_path {deltas : List Json} (h : ∀ delta ∈ deltas, delta.Integral)
    (path : List String) :
    (∀ delta ∈ deltas, delta.valueAt path = none) ∨
      (∃ delta ∈ deltas, ∃ entries, delta.valueAt path = some (.map entries)) ∨
      ∃ delta ∈ deltas, ∃ n, delta.integerAt? path = some n := by
  by_cases hnone : ∀ delta ∈ deltas, delta.valueAt path = none
  · exact Or.inl hnone
  · push Not at hnone
    obtain ⟨delta, hdelta, hvalue⟩ := hnone
    rcases (h delta hdelta).at_path path with hnone | hmap | hcounter
    · exact absurd hnone hvalue
    · exact Or.inr (Or.inl ⟨delta, hdelta, hmap⟩)
    · exact Or.inr (Or.inr ⟨delta, hdelta, hcounter⟩)

/-! ## Trees below a name -/

theorem Json.amountAt_single (name : String) (value : Json) (rest : List String) :
    (Json.map [(name, value)]).amountAt (name :: rest) = value.amountAt rest := by
  unfold amountAt
  rw [Json.integerAt?_single, if_pos rfl]

theorem totalAt_single (name : String) (deltas : List Json) (rest : List String) :
    totalAt (deltas.map fun delta => .map [(name, delta)]) (name :: rest) = totalAt deltas rest := by
  unfold totalAt
  rw [List.map_map]
  congr 1
  refine List.map_congr_left fun delta _ => ?_
  exact Json.amountAt_single name delta rest

theorem movementAt_single (name : String) (deltas : List Json) (rest : List String) :
    movementAt (deltas.map fun delta => .map [(name, delta)]) (name :: rest) = movementAt deltas rest := by
  unfold movementAt
  rw [List.map_map]
  congr 1
  refine List.map_congr_left fun delta _ => ?_
  exact congrArg Int.natAbs (Json.amountAt_single name delta rest)

/-- What can be added to an entry of an item can be added to the item below the name of the entry. -/
theorem Addable.single {item : Item} {name : String} {deltas : List Json}
    (h : Addable (Assoc.find? item name) deltas) :
    Addable (some (.map item)) (deltas.map fun delta => .map [(name, delta)]) := by
  constructor
  · intro tree htree
    obtain ⟨delta, hdelta, rfl⟩ := List.mem_map.1 htree
    exact (h.integral delta hdelta).single name
  · intro tree htree
    obtain ⟨delta, hdelta, rfl⟩ := List.mem_map.1 htree
    exact (h.fits delta hdelta).single
  · intro tree htree other hother path n entries hn hentries
    obtain ⟨delta, hdelta, rfl⟩ := List.mem_map.1 htree
    obtain ⟨delta', hdelta', rfl⟩ := List.mem_map.1 hother
    cases path with
    | nil => cases hn
    | cons next rest =>
      rw [Json.integerAt?_single] at hn
      rw [Json.valueAt_single] at hentries
      by_cases he : next = name
      · rw [if_pos he] at hn hentries
        exact h.consistent delta hdelta delta' hdelta' rest n entries hn hentries
      · rw [if_neg he] at hn
        cases hn
  · intro path tree htree n hn
    obtain ⟨delta, hdelta, rfl⟩ := List.mem_map.1 htree
    cases path with
    | nil => cases hn
    | cons next rest =>
      rw [Json.integerAt?_single] at hn
      split at hn
      · rename_i he
        subst he
        rw [movementAt_single, show nodeIn (some (.map item)) (next :: rest) = _ from nodeAt_entry item next rest]
        exact h.bounded rest delta hdelta n hn
      · cases hn

/-! ## Order does not matter -/

theorem Addable.perm {stored? : Option Attribute} {deltas others : List Json} (h : Addable stored? deltas)
    (hperm : deltas.Perm others) : Addable stored? others where
  integral delta hdelta := h.integral delta (hperm.mem_iff.2 hdelta)
  fits delta hdelta := h.fits delta (hperm.mem_iff.2 hdelta)
  consistent delta hdelta other hother :=
    h.consistent delta (hperm.mem_iff.2 hdelta) other (hperm.mem_iff.2 hother)
  bounded path delta hdelta n hn := by
    rw [← movementAt_perm hperm]
    exact h.bounded path delta (hperm.mem_iff.2 hdelta) n hn

theorem Totals.perm {before? : Option Attribute} {deltas others : List Json} {after : Attribute}
    (h : Totals before? deltas after) (hperm : deltas.Perm others) : Totals before? others after where
  counters path delta hdelta n hn := by
    rw [← totalAt_perm hperm]
    exact h.counters path delta (hperm.mem_iff.2 hdelta) n hn
  maps path delta hdelta := h.maps path delta (hperm.mem_iff.2 hdelta)
  others path hnone := h.others path fun delta hdelta => hnone delta (hperm.mem_iff.1 hdelta)

/-- There is one tree with given totals. -/
theorem Totals.unique {before? : Option Attribute} {deltas : List Json} {a b : Attribute}
    (hintegral : ∀ delta ∈ deltas, delta.Integral) (ha : Totals before? deltas a)
    (hb : Totals before? deltas b) (hordered : a.Ordered) (hordered' : b.Ordered) : a = b := by
  refine Attribute.eq_of_nodeAt_eq hordered hordered' fun path => ?_
  rcases integral_at_path hintegral path with
    hnone | ⟨delta, hdelta, entries, hmap⟩ | ⟨delta, hdelta, n, hn⟩
  · rw [ha.others path hnone, hb.others path hnone]
  · rw [ha.maps path delta hdelta entries hmap, hb.maps path delta hdelta entries hmap]
  · rw [ha.counters path delta hdelta n hn, hb.counters path delta hdelta n hn]

/-! ## One tree more -/

theorem Totals.nil (stored : Attribute) : Totals (some stored) [] stored where
  counters _ _ hdelta := absurd hdelta List.not_mem_nil
  maps _ _ hdelta := absurd hdelta List.not_mem_nil
  others _ _ := rfl

section Next

variable {before? : Option Attribute} {done rest : List Json} {delta : Json} {stored : Attribute}

/-- The amount that stands at a path where no map was added. -/
theorem Totals.amount_eq (hadd : Addable before? (done ++ delta :: rest))
    (h : Totals before? done stored) {path : List String}
    (hmap : ∀ other ∈ done, ∀ entries, other.valueAt path ≠ some (.map entries)) :
    Node.amount (stored.nodeAt path) = Node.amount (nodeIn before? path) + totalAt done path := by
  have hintegral : ∀ other ∈ done, other.Integral :=
    fun other hother => hadd.integral other (List.mem_append_left _ hother)
  rcases integral_at_path hintegral path with
    hnone | ⟨other, hother, entries, hentries⟩ | ⟨other, hother, n, hn⟩
  · rw [h.others path hnone, totalAt_of_none hnone, Int.add_zero]
  · exact absurd hentries (hmap other hother entries)
  · have hbound := hadd.bounded path other (List.mem_append_left _ hother) n hn
    have htotal := natAbs_totalAt_le done path
    rw [movementAt_append] at hbound
    rw [h.counters path other hother n hn]
    exact Node.amount_eq (Attribute.Node.integer?_toString (by omega))

/-- What is still to be added fits what has been added to. -/
theorem Totals.fits_next (hadd : Addable before? (done ++ delta :: rest))
    (h : Totals before? done stored) : Fits (some stored) delta := by
  have hmem : ∀ other ∈ done, other ∈ done ++ delta :: rest :=
    fun other hother => List.mem_append_left _ hother
  have hdelta : delta ∈ done ++ delta :: rest :=
    List.mem_append_right _ List.mem_cons_self
  have hintegral : ∀ other ∈ done, other.Integral := fun other hother => hadd.integral other (hmem other hother)
  constructor
  · intro path n hn
    have hmap : ∀ other ∈ done, ∀ entries, other.valueAt path ≠ some (.map entries) :=
      fun other hother entries => hadd.consistent delta hdelta other (hmem other hother) path n entries hn
    have hamount := h.amount_eq hadd hmap
    have hbound := hadd.bounded path delta hdelta n hn
    have htotal := natAbs_totalAt_le done path
    rw [movementAt_append, movementAt_cons, Json.amountAt_of_integerAt? hn] at hbound
    constructor
    · intro node hnode
      rcases integral_at_path hintegral path with
        hnone | ⟨other, hother, entries, hentries⟩ | ⟨other, hother, m, hm⟩
      · exact ((hadd.fits delta hdelta).counters path n hn).1 node ((h.others path hnone).symm.trans hnode)
      · exact absurd hentries (hmap other hother entries)
      · cases (h.counters path other hother m hm).symm.trans hnode
        rw [Attribute.Node.integer?_toString (by omega)]
        rfl
    · show (Node.amount (stored.nodeAt path)).natAbs + _ ≤ _
      rw [hamount]
      omega
  · intro path entries hentries node hnode
    rcases integral_at_path hintegral path with
      hnone | ⟨other, hother, inner, hinner⟩ | ⟨other, hother, m, hm⟩
    · exact (hadd.fits delta hdelta).maps path entries hentries node
        ((h.others path hnone).symm.trans hnode)
    · exact (Option.some.inj ((h.maps path other hother inner hinner).symm.trans hnode)).symm
    · exact absurd hentries (hadd.consistent other (hmem other hother) delta hdelta path m entries hm)

/-- Maps that a tree has from the beginning stay. -/
theorem Totals.covers_next (hadd : Addable before? (done ++ delta :: rest))
    (h : Totals before? done stored) (hcovers : Covers before? delta) : Covers (some stored) delta := by
  intro path entries hentries
  show stored.nodeAt path = some .map
  rcases integral_at_path (fun other hother => hadd.integral other (List.mem_append_left _ hother)) path with
    hnone | ⟨other, hother, inner, hinner⟩ | ⟨other, hother, m, hm⟩
  · rw [h.others path hnone]
    exact hcovers path entries hentries
  · exact h.maps path other hother inner hinner
  · exact absurd hentries (hadd.consistent other (List.mem_append_left _ hother) delta
      (List.mem_append_right _ List.mem_cons_self) path m entries hm)

/-- Raising the counters by one more tree adds it to the totals. -/
theorem Totals.snoc (hadd : Addable before? (done ++ delta :: rest)) (h : Totals before? done stored)
    {after : Attribute} (hraises : Raises (some stored) delta after) :
    Totals before? (done ++ [delta]) after := by
  have hdelta : delta ∈ done ++ delta :: rest :=
    List.mem_append_right _ List.mem_cons_self
  have hintegral := hadd.integral delta hdelta
  have htotal : ∀ path, totalAt (done ++ [delta]) path = totalAt done path + delta.amountAt path := by
    intro path
    rw [totalAt_append, totalAt_singleton]
  constructor
  · intro path other hother m hm
    rw [htotal]
    rcases hintegral.at_path path with hnone | ⟨entries, hentries⟩ | ⟨n, hn⟩
    · rcases List.mem_append.1 hother with hother | hother
      · rw [hraises.others path hnone, Json.amountAt_of_none hnone, Int.add_zero]
        exact h.counters path other hother m hm
      · cases List.mem_singleton.1 hother
        obtain ⟨_, hm⟩ := Json.integerAt?_eq_some.1 hm
        cases hnone.symm.trans hm
    · have hmem : other ∈ done ++ delta :: rest := by
        rcases List.mem_append.1 hother with hother | hother
        · exact List.mem_append_left _ hother
        · exact List.mem_singleton.1 hother ▸ hdelta
      exact absurd hentries (hadd.consistent other hmem delta hdelta path m entries hm)
    · have hmap : ∀ other ∈ done, ∀ entries, other.valueAt path ≠ some (.map entries) :=
        fun other hother entries => hadd.consistent delta hdelta other (List.mem_append_left _ hother)
          path n entries hn
      have hamount := h.amount_eq hadd hmap
      rw [hraises.counters path n hn, Json.amountAt_of_integerAt? hn, ← Int.add_assoc, ← hamount]
      rfl
  · intro path other hother entries hentries
    rcases hintegral.at_path path with hnone | ⟨inner, hinner⟩ | ⟨n, hn⟩
    · rcases List.mem_append.1 hother with hother | hother
      · rw [hraises.others path hnone]
        exact h.maps path other hother entries hentries
      · cases List.mem_singleton.1 hother
        cases hnone.symm.trans hentries
    · exact hraises.maps path inner hinner
    · have hmem : other ∈ done ++ delta :: rest := by
        rcases List.mem_append.1 hother with hother | hother
        · exact List.mem_append_left _ hother
        · exact List.mem_singleton.1 hother ▸ hdelta
      exact absurd hentries (hadd.consistent delta hdelta other hmem path n entries hn)
  · intro path hnone
    rw [hraises.others path (hnone delta (List.mem_append_right _ List.mem_cons_self))]
    exact h.others path fun other hother => hnone other (List.mem_append_left _ hother)

end Next

end KeyedRecords
