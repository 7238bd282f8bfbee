import KeyedRecords.Proofs.Attribute.Readable
import KeyedRecords.Proofs.Counters.Exact
import KeyedRecords.Proofs.Update.Nested

/-! Adding a tree of integer counters to a stored tree: each counter is raised by what is added at its path, and
nothing else changes. Main statement: `Raises.of_entries`. -/

namespace KeyedRecords

def greatestCounter : Nat := 9223372036854775807

/-! ## Amounts -/

def Json.integerAt? (value : Json) (path : List String) : Option Int :=
  match value.valueAt path with
  | some (.number (.integer n _)) => some n
  | _ => none

/-- The amount at a path of a JSON value, nothing where there is no integer. -/
def Json.amountAt (value : Json) (path : List String) : Int := (value.integerAt? path).getD 0

def Json.Integral (value : Json) : Prop := value.Leaves fun leaf => ∃ n inRange, leaf = .number (.integer n inRange)

def Json.Numeric (value : Json) : Prop := value.Leaves fun leaf => ∃ n, leaf = .number n

namespace Attribute

/-- The integer that stands at a node, in whatever digits it is written. -/
def Node.integer? : Node → Option Int
  | .leaf (.number text) =>
    match Number.ofText? text with
    | some (.integer n _) => some n
    | _ => none
  | _ => none

/-- The amount that stands at a node, nothing where there is no integer. -/
def Node.amount (node? : Option Node) : Int := (node?.bind Node.integer?).getD 0

def nodeIn (value? : Option Attribute) (path : List String) : Option Node :=
  value?.bind fun value => value.nodeAt path

theorem exists_map_of_nodeIn {value? : Option Attribute} (h : nodeIn value? [] = some .map) :
    ∃ entries, value? = some (map entries) := by
  obtain ⟨value, rfl, hnode⟩ := Option.bind_eq_some_iff.1 h
  rw [nodeAt_nil] at hnode
  obtain ⟨entries, rfl⟩ := node_eq_map_iff.1 (Option.some.inj hnode)
  exact ⟨entries, rfl⟩

theorem nodeAt_entry (entries : Item) (name : String) (rest : List String) :
    (map entries).nodeAt (name :: rest) = nodeIn (Assoc.find? entries name) rest := nodeAt_cons _ _ _

end Attribute

open Attribute (Node nodeIn nodeAt_entry)

theorem Json.integerAt?_eq_some {value : Json} {path : List String} {n : Int} :
    value.integerAt? path = some n ↔ ∃ inRange, value.valueAt path = some (.number (.integer n inRange)) := by
  unfold integerAt?
  split
  · rename_i m inRange hvalue
    rw [hvalue]
    constructor
    · intro h
      cases h
      exact ⟨inRange, rfl⟩
    · rintro ⟨_, h⟩
      cases h
      rfl
  · rename_i hother
    constructor
    · intro h
      cases h
    · rintro ⟨inRange, h⟩
      exact absurd h (hother n inRange)

theorem Json.integral_integer (n : Int) (inRange : WordRange n) :
    (Json.number (.integer n inRange)).Integral := leaves_of_not_map (fun _ he => by cases he) ⟨n, inRange, rfl⟩

theorem Json.integerAt?_single (name other : String) (value : Json) (rest : List String) :
    (Json.map [(name, value)]).integerAt? (other :: rest) =
      if other = name then value.integerAt? rest else none := by
  unfold integerAt?
  rw [Json.valueAt_single]
  by_cases h : other = name
  · rw [if_pos h, if_pos h]
  · rw [if_neg h, if_neg h]

theorem Json.Integral.numeric {value : Json} (h : value.Integral) : value.Numeric := fun path found hfound =>
  (h path found hfound).imp_right fun ⟨n, inRange, hnumber⟩ => ⟨.integer n inRange, hnumber⟩

namespace Attribute

theorem Node.integer?_eq_some {node : Node} {n : Int} : node.integer? = some n ↔
    ∃ text inRange, node = .leaf (.number text) ∧ Number.ofText? text = some (.integer n inRange) := by
  unfold integer?
  split
  · rename_i text
    split
    · rename_i m inRange htext
      constructor
      · intro h
        cases h
        exact ⟨text, inRange, rfl, htext⟩
      · rintro ⟨_, _, h, hother⟩
        cases h
        cases htext.symm.trans hother
        rfl
    · rename_i hother
      constructor
      · intro h
        cases h
      · rintro ⟨_, inRange, h, htext⟩
        cases h
        exact absurd htext (hother n inRange)
  · rename_i hother
    constructor
    · intro h
      cases h
    · rintro ⟨text, _, rfl, _⟩
      exact absurd rfl (hother text)

theorem Node.integer?_toString {n : Int} (h : n.natAbs ≤ greatestCounter) :
    Node.integer? (.leaf (.number (toString n))) = some n := by
  have hrange : WordRange n := by
    unfold WordRange
    unfold greatestCounter at h
    omega
  exact integer?_eq_some.2 ⟨_, hrange, rfl, Number.ofText?_text (.integer n hrange)⟩

theorem Node.amount_eq {node : Node} {n : Int} (h : node.integer? = some n) : amount (some node) = n := by
  show (node.integer?).getD 0 = n
  rw [h]
  rfl

end Attribute

/-- Integers add up exactly as far as counters go. -/
theorem Number.add?_integers {a b : Int} (ha : WordRange a) (hb : WordRange b)
    (hsum : a.natAbs + b.natAbs ≤ greatestCounter) :
    ∃ inRange, (Number.integer a ha).add? (.integer b hb) = some (.integer (a + b) inRange) := by
  unfold greatestCounter at hsum
  have hsigned : AddsSigned a b := by
    simp only [AddsSigned, Number.isSigned, Bool.and_eq_true, decide_eq_true_eq]
    omega
  exact ⟨Number.wordRange_of_isSigned hsigned.2.2, Number.add?_eq_integer_iff.2 ⟨hsigned, rfl⟩⟩

/-! ## Raising -/

/-- Whether a tree is another one with counters added: each of them raised, their maps in it, the rest as it was, and
the maps in order if they were. The tree before may be missing. -/
structure Raises (before? : Option Attribute) (delta : Json) (after : Attribute) : Prop where
  counters : ∀ path n, delta.integerAt? path = some n →
    after.nodeAt path = some (.leaf (.number (toString (Node.amount (nodeIn before? path) + n))))
  maps : ∀ path entries, delta.valueAt path = some (.map entries) → after.nodeAt path = some .map
  others : ∀ path, delta.valueAt path = none → after.nodeAt path = nodeIn before? path
  ordered : (∀ before, before? = some before → before.Ordered) → after.Ordered

/-- Whether counters can be added to a tree: they meet counters and maps meet maps, where there is anything, and
no sum is too great. -/
structure Fits (stored? : Option Attribute) (delta : Json) : Prop where
  counters : ∀ path n, delta.integerAt? path = some n →
    (∀ node, nodeIn stored? path = some node → node.integer?.isSome) ∧
      (Node.amount (nodeIn stored? path)).natAbs + n.natAbs ≤ greatestCounter
  maps : ∀ path entries, delta.valueAt path = some (.map entries) →
    ∀ node, nodeIn stored? path = some node → node = .map

theorem Fits.entry {item : Item} {counters : Json.Map} (h : Fits (some (.map item)) (.map counters))
    {name : String} {value : Json} (hvalue : Assoc.find? counters name = some value) :
    Fits (Assoc.find? item name) value := by
  have hpath := Json.valueAt_entry hvalue
  have hnode : ∀ path, nodeIn (some (.map item)) (name :: path) = nodeIn (Assoc.find? item name) path :=
    fun path => nodeAt_entry item name path
  constructor
  · intro path n hn
    have hentry := h.counters (name :: path) n (by simp only [Json.integerAt?, hpath]; exact hn)
    rwa [hnode] at hentry
  · intro path entries hentries
    have hentry := h.maps (name :: path) entries ((hpath path).trans hentries)
    rwa [hnode] at hentry

theorem Fits.single {item : Item} {name : String} {value : Json} (h : Fits (Assoc.find? item name) value) :
    Fits (some (.map item)) (.map [(name, value)]) := by
  have hnode : ∀ path, nodeIn (some (.map item)) (name :: path) = nodeIn (Assoc.find? item name) path :=
    fun path => nodeAt_entry item name path
  constructor
  · intro path n hn
    cases path with
    | nil => cases hn
    | cons other rest =>
      rw [Json.integerAt?_single] at hn
      split at hn
      · rename_i he
        rw [he, hnode]
        exact h.counters rest n hn
      · cases hn
  · intro path entries hentries
    cases path with
    | nil =>
      intro node hroot
      exact (Option.some.inj hroot).symm
    | cons other rest =>
      rw [Json.valueAt_single] at hentries
      split at hentries
      · rename_i he
        rw [he, hnode]
        exact h.maps rest entries hentries
      · cases hentries

/-- A counter that meets a counter or nothing is raised by taking the sum in its place. -/
theorem Raises.number {stored? : Option Attribute} {n : Int} {inRange : WordRange n}
    (h : Fits stored? (.number (.integer n inRange))) :
    Raises stored? (.number (.integer n inRange))
      (.number (toString (Node.amount (nodeIn stored? []) + n))) := by
  constructor
  · intro path m hm
    obtain ⟨_, hm⟩ := Json.integerAt?_eq_some.1 hm
    cases path with
    | nil =>
      cases hm
      rfl
    | cons name path => cases hm
  · intro path entries hentries
    cases path <;> cases hentries
  · intro path hnone
    cases path with
    | nil => cases hnone
    | cons name path =>
      cases stored? with
      | none => rfl
      | some stored =>
        have hinteger := (h.counters [] n rfl).1 stored.node (Attribute.nodeAt_nil stored)
        cases stored with
        | map entries => cases hinteger
        | _ => rfl
  · exact fun _ => Attribute.ordered_of_not_map fun _ he => by cases he

/-- A tree that can be read can be read when counters that fit it have been added. -/
theorem Raises.readable {before? : Option Attribute} {delta : Json} {after : Attribute}
    (h : Raises before? delta after) (hintegral : delta.Integral) (hfits : Fits before? delta)
    (hordered : ∀ before, before? = some before → before.Ordered)
    (hread : ∀ before, before? = some before → before.Readable) : after.Readable := by
  refine (Attribute.readable_iff_leaves (h.ordered hordered)).2 fun path leaf hleaf => ?_
  cases hvalue : delta.valueAt path with
  | none =>
    obtain ⟨before, hbefore, hnode⟩ := Option.bind_eq_some_iff.1 ((h.others path hvalue).symm.trans hleaf)
    exact (Attribute.readable_iff_leaves (hordered before hbefore)).1 (hread before hbefore) path leaf hnode
  | some found =>
    rcases hintegral path found hvalue with ⟨entries, rfl⟩ | ⟨n, inRange, rfl⟩
    · cases (h.maps path entries hvalue).symm.trans hleaf
    · have hn : delta.integerAt? path = some n := Json.integerAt?_eq_some.2 ⟨inRange, hvalue⟩
      cases (h.counters path n hn).symm.trans hleaf
      have hbound := (hfits.counters path n hn).2
      have hrange : WordRange (Node.amount (nodeIn before? path) + n) := by
        unfold WordRange
        unfold greatestCounter at hbound
        omega
      exact Attribute.readable_ofJson (.number (.integer _ hrange))

section Entries

variable {item after : Item} {counters : Json.Map}
  (hentries : ∀ name value, Assoc.find? counters name = some value → ∃ new,
    Assoc.find? after name = some new ∧ Raises (Assoc.find? item name) value new)

include hentries

/-- A path into a map of counters goes on in the entry that its first name names. -/
theorem exists_raised_entry {name : String} {path : List String} {found : Json}
    (h : (Json.map counters).valueAt (name :: path) = some found) : ∃ value new, value.valueAt path = some found ∧
      Raises (Assoc.find? item name) value new ∧ (Attribute.map after).nodeAt (name :: path) = new.nodeAt path := by
  obtain ⟨value, hvalue, hfound⟩ := Option.bind_eq_some_iff.1 h
  obtain ⟨new, hnew, hraises⟩ := hentries name value hvalue
  exact ⟨value, new, hfound, hraises, by rw [nodeAt_entry, hnew]; rfl⟩

/-- What is beside the counters stays, in the entries that they raise and in all others. -/
theorem nodeAt_of_beside (hothers : ∀ name, Assoc.find? counters name = none →
      Assoc.find? after name = Assoc.find? item name) {path : List String}
    (h : (Json.map counters).valueAt path = none) :
    (Attribute.map after).nodeAt path = (Attribute.map item).nodeAt path := by
  cases path with
  | nil => cases h
  | cons name path =>
    rw [nodeAt_entry, nodeAt_entry]
    cases hvalue : Assoc.find? counters name with
    | none => rw [hothers name hvalue]
    | some value =>
      obtain ⟨new, hnew, hraises⟩ := hentries name value hvalue
      rw [hnew]
      exact hraises.others path ((Json.valueAt_entry hvalue path).symm.trans h)

end Entries

/-- A map is raised if each of its entries is. -/
theorem Raises.of_entries {item after : Item} {counters : Json.Map}
    (hsorted : Assoc.Sorted item → Assoc.Sorted after)
    (hothers : ∀ name, Assoc.find? counters name = none → Assoc.find? after name = Assoc.find? item name)
    (hentries : ∀ name value, Assoc.find? counters name = some value → ∃ new,
      Assoc.find? after name = some new ∧ Raises (Assoc.find? item name) value new) :
    Raises (some (.map item)) (.map counters) (.map after) where
  counters path n hn := by
    obtain ⟨inRange, hn⟩ := Json.integerAt?_eq_some.1 hn
    cases path with
    | nil => cases hn
    | cons name path =>
      obtain ⟨value, new, hfound, hraises, hnode⟩ := exists_raised_entry hentries hn
      have hcounter := hraises.counters path n (Json.integerAt?_eq_some.2 ⟨inRange, hfound⟩)
      rw [hnode, hcounter, ← nodeAt_entry]
      rfl
  maps path entries hmap := by
    cases path with
    | nil => rfl
    | cons name path =>
      obtain ⟨value, new, hfound, hraises, hnode⟩ := exists_raised_entry hentries hmap
      exact hnode.trans (hraises.maps path entries hfound)
  others path hnone := nodeAt_of_beside hentries hothers hnone
  ordered hitem := by
    refine Attribute.ordered_of_entries hsorted hothers (fun name value hvalue => ?_) (hitem _ rfl)
    obtain ⟨new, hnew, hraises⟩ := hentries name value hvalue
    exact ⟨new, hnew, hraises.ordered⟩

end KeyedRecords
