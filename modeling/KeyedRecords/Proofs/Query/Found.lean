import KeyedRecords.Proofs.Layout
import KeyedRecords.Store.Contents

/-! What a query finds in the contents of a table: every item that it selects, once, in the order of sort
text and key. Main statements: `mem_found`, `found_pairwise`. -/

namespace KeyedRecords

/-! ## The order of matches -/

/-- The strict order of matches: by sort text, then by the key in the table. -/
def Match.Precedes (a b : Match) : Prop := a.sort < b.sort ∨ (a.sort = b.sort ∧ a.key < b.key)

namespace Match

theorem text_trichotomy (a b : String) : a < b ∨ a = b ∨ b < a := by
  by_cases hab : a < b
  · exact Or.inl hab
  by_cases hba : b < a
  · exact Or.inr (Or.inr hba)
  · exact Or.inr (Or.inl (Std.Trichotomous.trichotomous (r := (· < · : String → String → Prop)) a b hab hba))

theorem key_trichotomy (a b : Key) : a < b ∨ a = b ∨ b < a := by
  by_cases hab : a < b
  · exact Or.inl hab
  by_cases hba : b < a
  · exact Or.inr (Or.inr hba)
  · exact Or.inr (Or.inl (Std.Trichotomous.trichotomous (r := (· < · : Key → Key → Prop)) a b hab hba))

theorem key_lt_irrefl (a : Key) : ¬ a < a := Std.Irrefl.irrefl (r := (· < · : Key → Key → Prop)) a

theorem key_lt_trans {a b c : Key} (h : a < b) (h' : b < c) : a < c :=
  Trans.trans (r := (· < · : Key → Key → Prop)) h h'

theorem Precedes.irrefl (a : Match) : ¬ a.Precedes a := by
  rintro (h | ⟨-, h⟩)
  · exact String.lt_irrefl _ h
  · exact key_lt_irrefl _ h

theorem Precedes.trans {a b c : Match} (h : a.Precedes b) (h' : b.Precedes c) : a.Precedes c := by
  rcases h with h | ⟨e, h⟩ <;> rcases h' with h' | ⟨e', h'⟩
  · exact Or.inl (String.lt_trans h h')
  · exact Or.inl (e' ▸ h)
  · exact Or.inl (e ▸ h')
  · exact Or.inr ⟨e.trans e', key_lt_trans h h'⟩

theorem Precedes.of_ne {a b : Match} (hkey : a.key ≠ b.key) : a.Precedes b ∨ b.Precedes a := by
  rcases text_trichotomy a.sort b.sort with h | h | h
  · exact Or.inl (Or.inl h)
  · rcases key_trichotomy a.key b.key with h' | h' | h'
    · exact Or.inl (Or.inr ⟨h, h'⟩)
    · exact absurd h' hkey
    · exact Or.inr (Or.inr ⟨h.symm, h'⟩)
  · exact Or.inr (Or.inl h)

theorem before_iff {a b : Match} : a.before b = true ↔ ¬ b.Precedes a := by
  simp only [before, Precedes, Bool.or_eq_true, Bool.and_eq_true, Bool.not_eq_true',
    decide_eq_true_eq, decide_eq_false_iff_not, not_or, not_and]
  constructor
  · rintro (h | ⟨h, hkey⟩)
    · exact ⟨fun h' => String.lt_irrefl _ (String.lt_trans h h'),
        fun h' => absurd (h' ▸ h) (String.lt_irrefl _)⟩
    · exact ⟨h ▸ String.lt_irrefl _, fun _ => hkey⟩
  · rintro ⟨hsort, hkey⟩
    rcases text_trichotomy a.sort b.sort with h | h | h
    · exact Or.inl h
    · exact Or.inr ⟨h, hkey h.symm⟩
    · exact absurd h hsort

theorem before_total (a b : Match) : (a.before b || b.before a) = true := by
  rw [Bool.or_eq_true, before_iff, before_iff]
  by_cases h : b.Precedes a
  · exact Or.inr fun h' => Precedes.irrefl _ (h.trans h')
  · exact Or.inl h

theorem before_trans (a b c : Match) (h : a.before b = true) (h' : b.before c = true) :
    a.before c = true := by
  rw [before_iff] at h h' ⊢
  intro hca
  by_cases hkey : a.key = b.key
  · -- With one key the sort texts decide, and they are in order.
    rcases text_trichotomy a.sort b.sort with hs | hs | hs
    · exact h' (hca.trans (Or.inl hs))
    · refine h' ?_
      rcases hca with hc | ⟨hc, hc'⟩
      · exact Or.inl (hs ▸ hc)
      · exact Or.inr ⟨hc.trans hs, hkey ▸ hc'⟩
    · exact h (Or.inl hs)
  · rcases Precedes.of_ne hkey with hab | hba
    · exact h' (hca.trans hab)
    · exact h hba

end Match

namespace BoundQuery

/-! ## Selection -/

def sortText (query : BoundQuery) (item : Item) : String := (textOf? item query.sortName).getD ""

/-- A query by sort keys orders an item by the sort key that it carries. -/
theorem sortText_of_key {layout : TableLayout} {query : BoundQuery} (hname : query.sortName = layout.sortName)
    {item : Item} {key : Key} (hkey : layout.keyOf? item = some key) : query.sortText item = key.sort := by
  rw [sortText, textOf?, hname, (TableLayout.keyOf?_eq_some_iff.1 hkey).2]
  rfl

/-- Whether an item is in the partition of a query and meets its condition on the sort key. In an index it
has to have a sort key. -/
def Selects (query : BoundQuery) (item : Item) : Prop :=
  textOf? item query.partitionName = some query.partition ∧
    match query.sort? with
    | some condition => ∃ sort, textOf? item query.sortName = some sort ∧ condition.accepts sort = true
    | none => query.index?.isSome → (textOf? item query.sortName).isSome

theorem match?_eq_some_iff {query : BoundQuery} {key : Key} {item : Item} {m : Match} :
    query.match? key item = some m ↔ query.Selects item ∧ m = ⟨query.sortText item, key, item⟩ := by
  have hsome : ∀ a b : Match, some a = some b ↔ b = a := fun a b => Option.some_inj.trans eq_comm
  simp only [match?, Selects, sortText]
  split
  · rename_i h
    simp [h]
  · rename_i h
    have hpartition := Decidable.not_not.1 h
    rw [hpartition]
    cases query.sort? with
    | none =>
      cases textOf? item query.sortName with
      | none => cases query.index? <;> simp [hsome]
      | some sort => simp [hsome]
    | some condition =>
      cases textOf? item query.sortName with
      | none => simp
      | some sort => cases hc : condition.accepts sort <;> simp [hc, hsome]

theorem found_one {query : BoundQuery} {key : Key} {item : Item} {m : Match} (h : query.match? key item = some m) :
    query.found [(key, item)] = [m] := by
  simp [found, h]

theorem found_perm (query : BoundQuery) (contents : Contents) :
    (query.found contents).Perm (contents.filterMap fun (key, item) => query.match? key item) := by
  simp only [found]
  split
  · exact List.mergeSort_perm _ _
  · exact (List.reverse_perm _).trans (List.mergeSort_perm _ _)

theorem mem_found {query : BoundQuery} {contents : Contents} {m : Match} :
    m ∈ query.found contents ↔ (m.key, m.item) ∈ contents ∧ query.Selects m.item ∧
      m.sort = query.sortText m.item := by
  rw [(query.found_perm contents).mem_iff, List.mem_filterMap]
  constructor
  · rintro ⟨⟨key, item⟩, hmem, hm⟩
    obtain ⟨hselects, rfl⟩ := match?_eq_some_iff.1 hm
    exact ⟨hmem, hselects, rfl⟩
  · rintro ⟨hmem, hselects, hsort⟩
    refine ⟨(m.key, m.item), hmem, match?_eq_some_iff.2 ⟨hselects, ?_⟩⟩
    rw [← hsort]

/-! ## Order -/

/-- The order in which a query shows its matches. -/
def Follows (query : BoundQuery) (a b : Match) : Prop :=
  if query.ascending then a.Precedes b else b.Precedes a

theorem Follows.ne {query : BoundQuery} {a b : Match} (h : query.Follows a b) : a ≠ b := by
  rintro rfl
  simp only [Follows, ite_self] at h
  exact Match.Precedes.irrefl _ h

theorem matches_keys_pairwise (query : BoundQuery) {contents : Contents} (h : Assoc.Sorted contents) :
    (contents.filterMap fun (key, item) => query.match? key item).Pairwise (·.key ≠ ·.key) := by
  refine List.pairwise_filterMap.2 (h.imp fun {a b} hlt m hm m' hm' => ?_)
  obtain ⟨-, rfl⟩ := match?_eq_some_iff.1 hm
  obtain ⟨-, rfl⟩ := match?_eq_some_iff.1 hm'
  intro heq
  have hkey : a.1 = b.1 := heq
  rw [hkey] at hlt
  exact Match.key_lt_irrefl _ hlt

/-- No two matches have one key. -/
theorem found_keys_pairwise (query : BoundQuery) {contents : Contents} (h : Assoc.Sorted contents) :
    (query.found contents).Pairwise (·.key ≠ ·.key) :=
  (query.found_perm contents).symm.pairwise (matches_keys_pairwise query h) fun hne => Ne.symm hne

theorem sorted_pairwise (query : BoundQuery) {contents : Contents} (h : Assoc.Sorted contents) :
    ((contents.filterMap fun (key, item) => query.match? key item).mergeSort Match.before).Pairwise
      Match.Precedes := by
  have hbefore := List.pairwise_mergeSort Match.before_trans Match.before_total
    (contents.filterMap fun (key, item) => query.match? key item)
  have hkeys := (List.mergeSort_perm (contents.filterMap fun (key, item) => query.match? key item)
    Match.before).symm.pairwise (matches_keys_pairwise query h) fun hne => Ne.symm hne
  refine (hbefore.and hkeys).imp fun {a b} ⟨hab, hkey⟩ => ?_
  exact (Match.Precedes.of_ne hkey).resolve_right (Match.before_iff.1 hab)

theorem found_pairwise (query : BoundQuery) {contents : Contents} (h : Assoc.Sorted contents) :
    (query.found contents).Pairwise query.Follows := by
  have hsorted := sorted_pairwise query h
  by_cases hdir : query.ascending
  · have hfound : query.found contents = (contents.filterMap fun (key, item) =>
        query.match? key item).mergeSort Match.before := by simp [found, hdir]
    rw [hfound]
    exact hsorted.imp fun {a b} hab => by simpa [Follows, hdir] using hab
  · have hfound : query.found contents = ((contents.filterMap fun (key, item) =>
        query.match? key item).mergeSort Match.before).reverse := by simp [found, hdir]
    rw [hfound]
    refine List.pairwise_reverse.2 (hsorted.imp fun {a b} hab => ?_)
    simpa [Follows, hdir] using hab

/-- If the sort texts of the matches follow the order of the keys, a descending query finds the matches from the
greatest key down. -/
theorem found_descending {query : BoundQuery} {contents : Contents} (hdirection : query.ascending = false)
    (hordered : contents.Pairwise fun a b => ∀ m ∈ query.match? a.1 a.2, ∀ m' ∈ query.match? b.1 b.2,
      m.before m' = true) :
    query.found contents = (contents.filterMap fun entry => query.match? entry.1 entry.2).reverse := by
  have hbefore : (contents.filterMap fun entry => query.match? entry.1 entry.2).Pairwise
      fun a b => a.before b = true := List.pairwise_filterMap.2 hordered
  have hsorted := List.mergeSort_of_pairwise hbefore
  simp only [found, hdirection, Bool.false_eq_true, if_false]
  exact congrArg List.reverse hsorted

end BoundQuery

end KeyedRecords
