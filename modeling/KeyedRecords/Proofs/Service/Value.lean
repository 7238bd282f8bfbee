import KeyedRecords.Service.Value
import Mathlib.Data.List.Forall2

/-! What is written for an attribute is read back as it. The service knows more values than items hold: a set is read
as the list of its texts, and a value is read if nothing in it is of a kind that cannot be. Main statement:
`ServiceValue.reads_back`. -/

namespace KeyedRecords

namespace ServiceValue

/-! ## What is written -/

mutual

theorem toAttribute_ofAttribute : (value : Attribute) → toAttribute (ofAttribute value) = .ok value
  | .string _ | .number _ | .boolean _ | .null => rfl
  | .list elements => by
    rw [ofAttribute, toAttribute, toAttributeList_ofAttributeList elements]
    rfl
  | .map entries => by
    rw [ofAttribute, toAttribute, toItem_ofItem entries]
    rfl

theorem toAttributeList_ofAttributeList : (values : List Attribute) →
    toAttributeList (ofAttributeList values) = .ok values
  | [] => rfl
  | value :: rest => by
    rw [ofAttributeList, toAttributeList, toAttribute_ofAttribute value, toAttributeList_ofAttributeList rest]
    rfl

theorem toItem_ofItem : (item : Item) → toItem (ofItem item) = .ok item
  | [] => rfl
  | (name, value) :: rest => by
    rw [ofItem, toItem, toAttribute_ofAttribute value, toItem_ofItem rest]
    rfl

end

/-! ## What is read -/

/-- Whether a value is of a kind that no attribute stands for. -/
def Foreign : ServiceValue → Prop
  | binary _ | binarySet _ | unknown => True
  | string _ | number _ | boolean _ | null _ | list _ | map _ | stringSet _ | numberSet _ => False

/-- What occurs in a value: itself, and what occurs in its elements or under its names. -/
inductive Occurs (part : ServiceValue) : ServiceValue → Prop
  | here : Occurs part part
  | element {elements : List ServiceValue} {value : ServiceValue} (hmem : value ∈ elements)
      (hpart : Occurs part value) : Occurs part (list elements)
  | entry {entries : ServiceItem} {name : String} {value : ServiceValue} (hmem : (name, value) ∈ entries)
      (hpart : Occurs part value) : Occurs part (map entries)

/-- The attribute that a value is: a set is the list of its texts, and all else keeps its kind, its order and its
names. -/
inductive StandsFor : ServiceValue → Attribute → Prop
  | string (text : String) : StandsFor (string text) (.string text)
  | number (text : String) : StandsFor (number text) (.number text)
  | boolean (value : Bool) : StandsFor (boolean value) (.boolean value)
  | null (flag : Bool) : StandsFor (null flag) .null
  | list {values : List ServiceValue} {elements : List Attribute} (h : List.Forall₂ StandsFor values elements) :
      StandsFor (list values) (.list elements)
  | map {entries : ServiceItem} {item : Item} (hnames : Assoc.keys entries = Assoc.keys item)
      (hvalues : List.Forall₂ StandsFor (entries.map (·.2)) (item.map (·.2))) : StandsFor (map entries) (.map item)
  | stringSet (texts : List String) : StandsFor (stringSet texts) (.list (texts.map .string))
  | numberSet (texts : List String) : StandsFor (numberSet texts) (.list (texts.map .number))

/-- Whether something in a value is of a kind that no attribute stands for. -/
def Unreadable (value : ServiceValue) : Prop := ∃ part, Occurs part value ∧ part.Foreign

/-! ## Which values are read -/

theorem unreadable_list_iff {elements : List ServiceValue} :
    (list elements).Unreadable ↔ ∃ value ∈ elements, value.Unreadable := by
  constructor
  · rintro ⟨part, _ | ⟨hmem, hpart⟩, hforeign⟩
    · exact hforeign.elim
    · exact ⟨_, hmem, part, hpart, hforeign⟩
  · rintro ⟨value, hmem, part, hpart, hforeign⟩
    exact ⟨part, .element hmem hpart, hforeign⟩

theorem unreadable_map_iff {entries : ServiceItem} :
    (map entries).Unreadable ↔ ∃ entry ∈ entries, entry.2.Unreadable := by
  constructor
  · rintro ⟨part, _ | _ | ⟨hmem, hpart⟩, hforeign⟩
    · exact hforeign.elim
    · exact ⟨_, hmem, part, hpart, hforeign⟩
  · rintro ⟨entry, hmem, part, hpart, hforeign⟩
    exact ⟨part, .entry hmem hpart, hforeign⟩

/-- A first value and those after it are read one after the other, and fail in the one way there is. -/
theorem cons_eq_error {α β γ : Type} {x : Except StoreError α} {y : Except StoreError β} {f : α → β → γ}
    {p q : Prop} (hx : ∀ e, x = .error e ↔ e = .unsupportedAttribute ∧ p)
    (hy : ∀ e, y = .error e ↔ e = .unsupportedAttribute ∧ q) (e : StoreError) :
    (do let a ← x; pure (f a (← y))) = .error e ↔ e = .unsupportedAttribute ∧ (p ∨ q) := by
  rw [and_or_left, ← hx, ← hy, bind_eq_error]
  cases x with
  | error failure =>
    have hother : y = .error e → failure = e := fun hy' => ((hx failure).1 rfl).1.trans ((hy e).1 hy').1.symm
    simpa using hother
  | ok a => cases y <;> simp [bind, Except.bind, pure, Except.pure]

mutual

/-- Reading fails on the values in which a value of a kind that cannot be read occurs. -/
theorem toAttribute_eq_error_iff : (value : ServiceValue) → (e : StoreError) →
    (toAttribute value = .error e ↔ e = .unsupportedAttribute ∧ value.Unreadable)
  | list elements, e => by
    rw [toAttribute, map_eq_error, toAttributeList_eq_error_iff elements, unreadable_list_iff]
  | map entries, e => by
    rw [toAttribute, map_eq_error, toItem_eq_error_iff entries, unreadable_map_iff]
  | string _, e | number _, e | boolean _, e | null _, e | stringSet _, e | numberSet _, e => by
    refine ⟨nofun, ?_⟩
    rintro ⟨-, part, ⟨⟩, hforeign⟩
    exact hforeign.elim
  | binary _, e | binarySet _, e | unknown, e =>
    ⟨fun h => ⟨(Except.error.inj h).symm, _, .here, trivial⟩, fun h => congrArg _ h.1.symm⟩

theorem toAttributeList_eq_error_iff : (values : List ServiceValue) → (e : StoreError) →
    (toAttributeList values = .error e ↔ e = .unsupportedAttribute ∧ ∃ value ∈ values, value.Unreadable)
  | [], e => by simp [toAttributeList, pure, Except.pure]
  | value :: rest, e => by
    rw [toAttributeList, cons_eq_error (toAttribute_eq_error_iff value) (toAttributeList_eq_error_iff rest)]
    simp only [List.mem_cons, exists_eq_or_imp]

theorem toItem_eq_error_iff : (entries : ServiceItem) → (e : StoreError) →
    (toItem entries = .error e ↔ e = .unsupportedAttribute ∧ ∃ entry ∈ entries, entry.2.Unreadable)
  | [], e => by simp [toItem, pure, Except.pure]
  | (name, value) :: rest, e => by
    rw [toItem, cons_eq_error (toAttribute_eq_error_iff value) (toItem_eq_error_iff rest)]
    simp only [List.mem_cons, exists_eq_or_imp]

end

/-! ## What they are read as -/

mutual

/-- What a value is read as is the attribute that it is. -/
theorem toAttribute_eq_ok_iff : (value : ServiceValue) → (a : Attribute) →
    (toAttribute value = .ok a ↔ StandsFor value a)
  | list values, a => by
    rw [toAttribute, map_eq_ok]
    constructor
    · rintro ⟨elements, hread, rfl⟩
      exact .list ((toAttributeList_eq_ok_iff values elements).1 hread)
    · intro h
      cases h with
      | list h => exact ⟨_, (toAttributeList_eq_ok_iff values _).2 h, rfl⟩
  | map entries, a => by
    rw [toAttribute, map_eq_ok]
    constructor
    · rintro ⟨item, hread, rfl⟩
      obtain ⟨hnames, hvalues⟩ := (toItem_eq_ok_iff entries item).1 hread
      exact .map hnames hvalues
    · intro h
      cases h with
      | map hnames hvalues => exact ⟨_, (toItem_eq_ok_iff entries _).2 ⟨hnames, hvalues⟩, rfl⟩
  | string _, a | number _, a | boolean _, a | null _, a | stringSet _, a | numberSet _, a => by
    constructor
    · rintro ⟨⟩
      constructor
    · rintro ⟨⟩
      rfl
  | binary _, a | binarySet _, a | unknown, a => ⟨nofun, nofun⟩

theorem toAttributeList_eq_ok_iff : (values : List ServiceValue) → (elements : List Attribute) →
    (toAttributeList values = .ok elements ↔ List.Forall₂ StandsFor values elements)
  | [], elements => by simp [toAttributeList, pure, Except.pure, eq_comm]
  | value :: rest, elements => by
    rw [toAttributeList, pair_eq_ok, List.forall₂_cons_left_iff]
    simp only [toAttribute_eq_ok_iff value, toAttributeList_eq_ok_iff rest]

theorem toItem_eq_ok_iff : (entries : ServiceItem) → (item : Item) →
    (toItem entries = .ok item ↔ Assoc.keys entries = Assoc.keys item ∧
      List.Forall₂ StandsFor (entries.map (·.2)) (item.map (·.2)))
  | [], [] => ⟨fun _ => ⟨rfl, .nil⟩, fun _ => rfl⟩
  | [], _ :: _ => ⟨nofun, fun h => nomatch h.1⟩
  | (name, value) :: rest, item => by
    rw [toItem, pair_eq_ok]
    simp only [toAttribute_eq_ok_iff value, toItem_eq_ok_iff rest]
    constructor
    · rintro ⟨a, tail, hvalue, ⟨hnames, hvalues⟩, rfl⟩
      exact ⟨congrArg (name :: ·) hnames, .cons hvalue hvalues⟩
    · rintro ⟨hnames, hvalues⟩
      match item, hnames, hvalues with
      | (_, a) :: tail, hnames, .cons hvalue hvalues =>
        obtain ⟨rfl, htail⟩ := List.cons.inj hnames
        exact ⟨a, tail, hvalue, ⟨htail, hvalues⟩, rfl⟩

end

/-- Attributes and items come back from what is written for them. A value of the service cannot be read if a binary
value, a binary set or an unknown value occurs in it; any other is read as the attribute that it stands for, its sets as
lists, and that attribute comes back. -/
theorem reads_back :
    (∀ item, toItem (ofItem item) = .ok item) ∧
    ∀ value,
      ((∃ e, toAttribute value = .error e) ↔ ∃ part, Occurs part value ∧ part.Foreign) ∧
      ∀ a, (toAttribute value = .ok a ↔ StandsFor value a) ∧ toAttribute (ofAttribute a) = .ok a := by
  refine ⟨toItem_ofItem, fun value => ⟨?_, fun a => ⟨toAttribute_eq_ok_iff value a, toAttribute_ofAttribute a⟩⟩⟩
  simp only [toAttribute_eq_error_iff value, exists_eq_left]
  rfl

end ServiceValue

end KeyedRecords
