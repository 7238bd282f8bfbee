/-! An item is addressed by a partition key and, within the partition, a sort key. Keys are ordered by partition
first. -/

namespace KeyedRecords

structure Key where
  partition : String
  sort : String
  deriving DecidableEq, Repr, Inhabited

namespace Key

def lt (a b : Key) : Prop := a.partition < b.partition ∨ (a.partition = b.partition ∧ a.sort < b.sort)

instance : LT Key := ⟨lt⟩

instance (a b : Key) : Decidable (a < b) := inferInstanceAs (Decidable (_ ∨ (_ ∧ _)))

theorem lt_iff {a b : Key} :
    a < b ↔ a.partition < b.partition ∨ (a.partition = b.partition ∧ a.sort < b.sort) := Iff.rfl

theorem eq_iff {a b : Key} : a = b ↔ a.partition = b.partition ∧ a.sort = b.sort := by
  cases a
  cases b
  exact Iff.of_eq (Key.mk.injEq ..)

instance : Std.Irrefl (· < · : Key → Key → Prop) where
  irrefl a h := by
    rcases lt_iff.1 h with h | ⟨_, h⟩
    · exact String.lt_irrefl _ h
    · exact String.lt_irrefl _ h

instance : Trans (· < · : Key → Key → Prop) (· < ·) (· < ·) where
  trans {a b c} h h' := by
    refine lt_iff.2 ?_
    rcases lt_iff.1 h with h | ⟨e, h⟩ <;> rcases lt_iff.1 h' with h' | ⟨e', h'⟩
    · exact Or.inl (String.lt_trans h h')
    · exact Or.inl (e' ▸ h)
    · exact Or.inl (e ▸ h')
    · exact Or.inr ⟨e.trans e', String.lt_trans h h'⟩

instance : Std.Trichotomous (· < · : Key → Key → Prop) where
  trichotomous a b h h' := by
    obtain ⟨partition, sort⟩ := a
    obtain ⟨partition', sort'⟩ := b
    have hp : partition = partition' := Std.Trichotomous.trichotomous (r := (· < · : String → String → Prop))
      _ _ (fun hlt => h (Or.inl hlt)) fun hlt => h' (Or.inl hlt)
    have hs : sort = sort' := Std.Trichotomous.trichotomous (r := (· < · : String → String → Prop))
      _ _ (fun hlt => h (Or.inr ⟨hp, hlt⟩)) fun hlt => h' (Or.inr ⟨hp.symm, hlt⟩)
    rw [hp, hs]

def display (key : Key) : String := key.partition ++ "/" ++ key.sort

end Key

/-- The part of a query key that narrows the sort keys of a partition. -/
inductive SortKey where
  | exact (value : String)
  | startingWith (text : String)
  deriving DecidableEq, Repr

/-- A partition, and possibly which of its sort keys to look at. -/
structure KeyQuery where
  partition : String
  sort? : Option SortKey
  deriving DecidableEq, Repr

end KeyedRecords
