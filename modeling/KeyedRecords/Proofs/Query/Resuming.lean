import KeyedRecords.Proofs.Lists
import KeyedRecords.Proofs.Query.Paging

/-! Going on from a page in a table that was written to in between. The next page starts after the item that the last
one ended with or, where that item was deleted, after its sort text alone: of the items with this sort text, those
that come after the deleted one are then left out. Main statements: `resume_eq_following_iff`, `taken_resumed_iff`. -/

namespace KeyedRecords

namespace TableLayout

variable {layout : TableLayout} {item : Item} {key : Key}

/-- The attributes of a key are those of the items that carry it. -/
theorem find?_keyItem_of_keyOf? (h : layout.keyOf? item = some key) (name : String) :
    Assoc.find? (layout.keyItem key) name = Assoc.find? item name ∨
      name ≠ layout.partitionName ∧ name ≠ layout.sortName ∧ Assoc.find? (layout.keyItem key) name = none := by
  obtain ⟨hpartition, hsort⟩ := keyOf?_eq_some_iff.1 h
  rw [find?_keyItem]
  by_cases hname : name = layout.sortName
  · rw [if_pos hname, hname, hsort]
    exact Or.inl rfl
  · rw [if_neg hname]
    by_cases hname' : name = layout.partitionName
    · rw [if_pos hname', hname', hpartition]
      exact Or.inl rfl
    · rw [if_neg hname']
      exact Or.inr ⟨hname', hname, rfl⟩

end TableLayout

namespace BoundQuery

/-! ## Places in the order of a query -/

instance (a b : Match) : Decidable (a.Precedes b) := inferInstanceAs (Decidable (_ ∨ (_ ∧ _)))

instance (query : BoundQuery) (a b : Match) : Decidable (query.Follows a b) :=
  inferInstanceAs (Decidable (if query.ascending then a.Precedes b else b.Precedes a))

/-- What a query finds after a place in its order. -/
def following (query : BoundQuery) (contents : Contents) (place : Match) : List Match :=
  (query.found contents).filter fun m => decide (query.Follows place m)

/-- The matches that a page shows. -/
def taken (query : BoundQuery) (contents : Contents) : List Match :=
  (query.resume (query.found contents)).take query.limit

theorem page_items (query : BoundQuery) (contents : Contents) :
    (query.page contents).items = (query.taken contents).map fun m => query.shown m.item := rfl

theorem mem_following {query : BoundQuery} {contents : Contents} {place m : Match} :
    m ∈ query.following contents place ↔ m ∈ query.found contents ∧ query.Follows place m := by
  simp [following]

theorem Follows.trans {query : BoundQuery} {a b c : Match} (h : query.Follows a b) (h' : query.Follows b c) :
    query.Follows a c := by
  by_cases hdir : query.ascending
  · simp only [Follows, hdir, if_true] at h h' ⊢
    exact h.trans h'
  · simp only [Follows, hdir] at h h' ⊢
    exact h'.trans h

/-- Whether a sort text lies beyond another in the direction of a query. -/
def Beyond (query : BoundQuery) (text other : String) : Prop :=
  if query.ascending then text < other else other < text

theorem beyond_irrefl (query : BoundQuery) (text : String) : ¬ query.Beyond text text := by
  unfold Beyond
  split <;> exact String.lt_irrefl text

/-- What follows a place has a sort text beyond that of the place, or the same one. -/
theorem Follows.sort_cases {query : BoundQuery} {a b : Match} (h : query.Follows a b) :
    query.Beyond a.sort b.sort ∨ b.sort = a.sort := by
  by_cases hdir : query.ascending
  · simp only [Follows, Beyond, hdir, if_true] at h ⊢
    exact h.imp_right fun h => h.1.symm
  · simp only [Follows, Beyond, hdir] at h ⊢
    exact h.imp_right And.left

theorem Follows.key_ne {query : BoundQuery} {a b : Match} (h : query.Follows a b) (hsort : b.sort = a.sort) :
    b.key ≠ a.key := by
  intro hkey
  simp only [Follows, Match.Precedes, hsort, hkey, String.lt_irrefl, Match.key_lt_irrefl, and_false, or_false,
    ite_self] at h

theorem Follows.of_beyond {query : BoundQuery} {a b : Match} (h : query.Beyond a.sort b.sort) :
    query.Follows a b := by
  by_cases hdir : query.ascending
  · simp only [Follows, Beyond, hdir, if_true] at h ⊢
    exact Or.inl h
  · simp only [Follows, Beyond, hdir] at h ⊢
    exact Or.inl h

/-! ## The key that a page ends with -/

theorem find?_continuation_sortName (query : BoundQuery) (last : Match) :
    Assoc.find? (query.continuation last) query.sortName =
      (Assoc.find? last.item query.sortName).or (Assoc.find? (query.layout.keyItem last.key) query.sortName) := by
  simp only [continuation, List.foldl_cons, List.foldl_nil]
  cases hsort : Assoc.find? last.item query.sortName with
  | some value => simp [Assoc.find?_insert_self]
  | none =>
    dsimp only
    split
    · rename_i value hvalue
      have hne : query.sortName ≠ query.partitionName := by
        intro he
        rw [← he, hsort] at hvalue
        cases hvalue
      rw [Assoc.find?_insert_of_ne _ _ hne, Option.none_or]
    · rw [Option.none_or]

/-- A page with a key to go on from ends with a match of this key and of the sort text in it. -/
theorem exists_of_lastKey? {query : BoundQuery} {contents : Contents} {start : Item}
    (hsorted : Assoc.Sorted contents) (hkeyed : query.layout.Keyed contents)
    (h : (query.page contents).lastKey? = some start) :
    1 ≤ query.limit ∧ ∃ last ∈ query.found contents, (query.taken contents).getLast? = some last ∧
      query.layout.keyOf? start = some last.key ∧
      textOf? start query.sortName = textOf? last.item query.sortName := by
  obtain ⟨last, hfound, hlast, rfl⟩ := exists_continuation hsorted h
  have hkey := hkeyed _ _ (mem_found.1 hfound).1
  have hlimit : 1 ≤ query.limit := by
    refine Nat.one_le_iff_ne_zero.2 fun hzero => ?_
    rw [hzero, List.take_zero] at hlast
    cases hlast
  have hkeys := TableLayout.find?_keyItem_of_keyOf? hkey
  refine ⟨hlimit, last, hfound, hlast, TableLayout.keyOf?_eq_some_iff.2 ?_, ?_⟩
  · obtain ⟨hpartition, hsort⟩ := TableLayout.keyOf?_eq_some_iff.1 hkey
    rw [find?_continuation ((hkeys _).resolve_right fun hn => hn.1 rfl),
      find?_continuation ((hkeys _).resolve_right fun hn => hn.2.1 rfl)]
    exact ⟨hpartition, hsort⟩
  · rw [textOf?, textOf?, find?_continuation_sortName]
    cases hsort : Assoc.find? last.item query.sortName with
    | some value => rfl
    | none =>
      rcases hkeys query.sortName with hown | ⟨-, -, hnone⟩
      · rw [hown, hsort]
        rfl
      · rw [hnone]
        rfl

/-! ## Going on -/

/-- Whether a page that starts after a match can tell what follows it: the match is still stored, or what follows it has
another sort text; where the match had none, only if all that is found follows it. -/
def Resumable (query : BoundQuery) (contents : Contents) (last : Match) : Prop :=
  (Assoc.find? contents last.key).isSome ∨
    match textOf? last.item query.sortName with
    | some text => ∀ m ∈ query.found contents, query.Follows last m → m.sort ≠ text
    | none => ∀ m ∈ query.found contents, query.Follows last m

section Later

variable {query : BoundQuery} {later : Contents} {last : Match} {start : Item}

theorem past_of_stored (hlater : Assoc.Sorted later) (hkey : query.layout.keyOf? start = some last.key)
    (hmem : last ∈ query.found later) (m : Match) :
    (query.startingAfter start).Past later m ↔ query.Follows last m := by
  have hsame : ∀ first ∈ query.found later, query.layout.keyOf? start = some first.key → first = last := by
    intro first hfirst hkey'
    by_contra hne
    have : Std.Symm fun a b : Match => a.key ≠ b.key := ⟨fun _ _ h => Ne.symm h⟩
    refine (found_keys_pairwise query hlater).forall hfirst hmem hne ?_
    exact Option.some.inj (hkey'.symm.trans hkey)
  constructor
  · exact fun hpast => (hpast start rfl).1 last hmem hkey
  · intro hfollows start' hstart
    cases hstart
    refine ⟨fun first hfirst hkey' => ?_, fun hnone => absurd hkey (hnone last hmem)⟩
    rw [hsame first hfirst hkey']
    exact hfollows

theorem past_of_deleted (hkey : query.layout.keyOf? start = some last.key)
    (hgone : Assoc.find? later last.key = none) (m : Match) :
    (query.startingAfter start).Past later m ↔
      ∀ text, textOf? start query.sortName = some text → query.Beyond text m.sort := by
  have hnone : ∀ first ∈ query.found later, query.layout.keyOf? start ≠ some first.key := by
    intro first hfirst hkey'
    rw [Option.some.inj (hkey.symm.trans hkey')] at hgone
    exact Assoc.find?_eq_none_iff.1 hgone (List.mem_map_of_mem (mem_found.1 hfirst).1)
  constructor
  · exact fun hpast => (hpast start rfl).2 hnone
  · intro htext start' hstart
    cases hstart
    exact ⟨fun first hfirst hkey' => absurd hkey' (hnone first hfirst), fun _ => htext⟩

/-- The next page goes on with what follows a match if and only if it can tell what that is. -/
theorem resume_eq_following_iff (hlater : Assoc.Sorted later)
    (hkey : query.layout.keyOf? start = some last.key)
    (htext : textOf? start query.sortName = textOf? last.item query.sortName)
    (hselects : query.Selects last.item) (hsort : last.sort = query.sortText last.item)
    (hkept : ∀ item, Assoc.find? later last.key = some item → item = last.item) :
    (query.startingAfter start).resume (query.found later) = query.following later last ↔
      query.Resumable later last := by
  obtain ⟨hsuffix, hpast⟩ := resume_spec (query.startingAfter start) hlater
  have hmembers : (query.startingAfter start).resume (query.found later) = query.following later last ↔
      ∀ m ∈ query.found later, (query.startingAfter start).Past later m ↔ query.Follows last m := by
    constructor
    · intro h m hm
      rw [← hpast m hm]
      show m ∈ (query.startingAfter start).resume (query.found later) ↔ _
      rw [h, mem_following]
      exact and_iff_right hm
    · intro h
      have hfound := found_pairwise query hlater
      refine eq_of_mem_iff (hfound.sublist hsuffix.sublist) (hfound.sublist List.filter_sublist) fun m => ?_
      rw [mem_following]
      constructor
      · intro hm
        have hmem := hsuffix.subset hm
        exact ⟨hmem, (h m hmem).1 ((hpast m hmem).1 hm)⟩
      · rintro ⟨hmem, hfollows⟩
        exact (hpast m hmem).2 ((h m hmem).2 hfollows)
  rw [hmembers, Resumable]
  cases hstored : Assoc.find? later last.key with
  | some item =>
    have hmem : last ∈ query.found later :=
      mem_found.2 ⟨hkept item hstored ▸ Assoc.mem_of_find? hstored, hselects, hsort⟩
    exact ⟨fun _ => Or.inl rfl, fun _ m _ => past_of_stored hlater hkey hmem m⟩
  | none =>
    simp only [past_of_deleted hkey hstored, htext, Option.isSome_none, Bool.false_eq_true, false_or]
    rw [sortText] at hsort
    cases hown : textOf? last.item query.sortName with
    | none => simp
    | some text =>
      rw [hown, Option.getD_some] at hsort
      simp only [Option.some.injEq, forall_eq']
      refine forall₂_congr fun m _ => ⟨fun h hfollows he => ?_, fun h => ⟨fun hbeyond => ?_, fun hfollows => ?_⟩⟩
      · exact query.beyond_irrefl text (he ▸ h.2 hfollows)
      · exact Follows.of_beyond (hsort ▸ hbeyond)
      · rw [← hsort]
        exact hfollows.sort_cases.resolve_right fun he => h hfollows (he.trans hsort)

/-- Under the key names of the table the sort text tells what follows: it is that of no other item of the partition. -/
theorem resumable_of_own_names (hpartition : query.partitionName = query.layout.partitionName)
    (hsortName : query.sortName = query.layout.sortName) (hkeyed : query.layout.Keyed later)
    (hcarried : query.layout.keyOf? last.item = some last.key) (hselects : query.Selects last.item)
    (hsort : last.sort = query.sortText last.item) : query.Resumable later last := by
  have hown : ∀ {m : Match}, query.layout.keyOf? m.item = some m.key → query.Selects m.item →
      textOf? m.item query.sortName = some m.key.sort ∧ m.key.partition = query.partition := by
    intro m hm hselected
    obtain ⟨hp, hs⟩ := TableLayout.keyOf?_eq_some_iff.1 hm
    have hown := hselected.1
    rw [textOf?, hpartition, hp] at hown
    rw [textOf?, hsortName, hs]
    exact ⟨rfl, Option.some.inj hown⟩
  obtain ⟨htext, hpart⟩ := hown hcarried hselects
  refine Or.inr ?_
  rw [htext]
  intro m hm hfollows he
  obtain ⟨hmem, hselected, hsort'⟩ := mem_found.1 hm
  obtain ⟨htext', hpart'⟩ := hown (hkeyed _ _ hmem) hselected
  rw [sortText, htext, Option.getD_some] at hsort
  rw [sortText, htext', Option.getD_some] at hsort'
  refine hfollows.key_ne ?_ ?_
  · rw [he, hsort]
  · rw [Key.eq_iff, hpart, hpart', ← hsort, ← hsort', he]
    exact ⟨rfl, hsort.symm⟩

end Later

/-- A page with a key to go on from ends with the match that this key points at. The page after it, in a table that was
written to in between but holds nothing new under the key, shows the first of what follows this match if and only if it
can tell what that is, as it always can under the key names of the table. -/
theorem taken_resumed_iff {query : BoundQuery} {earlier : Contents} {start : Item} (hsorted : Assoc.Sorted earlier)
    (hkeyed : query.layout.Keyed earlier) (hpage : (query.page earlier).lastKey? = some start) :
    ∃ last ∈ query.found earlier, (query.taken earlier).getLast? = some last ∧
      query.layout.keyOf? start = some last.key ∧ query.sortText start = last.sort ∧
      ∀ later, Assoc.Sorted later → (∀ item, Assoc.find? later last.key = some item → item = last.item) →
        ((query.startingAfter start).taken later = (query.following later last).take query.limit ↔
          query.Resumable later last) ∧
        (query.Resumable later last → ((query.startingAfter start).page later).items =
          ((query.following later last).take query.limit).map fun m => query.shown m.item) ∧
        (query.partitionName = query.layout.partitionName → query.sortName = query.layout.sortName →
          query.layout.Keyed later → query.Resumable later last) := by
  obtain ⟨hlimit, last, hfound, hlast, hkey, htext⟩ := exists_of_lastKey? hsorted hkeyed hpage
  obtain ⟨hmem, hselects, hsort⟩ := mem_found.1 hfound
  refine ⟨last, hfound, hlast, hkey, ?_, fun later hlater hkept => ?_⟩
  · rw [hsort, sortText, sortText, htext]
  · have hiff : (query.startingAfter start).taken later = (query.following later last).take query.limit ↔
        query.Resumable later last := by
      rw [← resume_eq_following_iff hlater hkey htext hselects hsort hkept]
      have hnodup : (query.found later).Nodup := (found_pairwise query hlater).imp Follows.ne
      have hend : query.following later last <:+ query.found later :=
        filter_suffix (found_pairwise query hlater) fun a b hab ha =>
          decide_eq_true ((of_decide_eq_true ha).trans hab)
      have hend' := (resume_spec (query.startingAfter start) hlater).1
      exact ⟨eq_of_suffix_of_take hnodup hend' hend hlimit, fun h => congrArg (List.take query.limit) h⟩
    refine ⟨hiff, fun hresumable => ?_, fun hpartition hname hkeyed' => ?_⟩
    · rw [page_items, hiff.2 hresumable]
      rfl
    · exact resumable_of_own_names hpartition hname hkeyed' (hkeyed _ _ hmem) hselects hsort

def foundNote (sort : String) : Match where
  sort := "1"
  key := ⟨"n", sort⟩
  item := [("due", .string "1"), ("owner", .string "x"), ("pk", .string "n"), ("sk", .string sort)]

/-- Two notes are due on one day. When the one that a page ended with is deleted, the next page leaves out the other. -/
theorem taken_resumed_iff_notes :
    (notesByDate.page notes).lastKey? = some (foundNote "b").item ∧
      notesByDate.following (Assoc.erase notes ⟨"n", "b"⟩) (foundNote "b") = [foundNote "a"] ∧
      (notesByDate.startingAfter (foundNote "b").item).taken (Assoc.erase notes ⟨"n", "b"⟩) ≠ [foundNote "a"] := by
  have hpage : (notesByDate.page notes).lastKey? = some (foundNote "b").item := by cbv
  have hfollowing : notesByDate.following (Assoc.erase notes ⟨"n", "b"⟩) (foundNote "b") = [foundNote "a"] := by
    cbv
  refine ⟨hpage, hfollowing, fun htaken => ?_⟩
  obtain ⟨last, -, hlast, -, -, hlater⟩ := taken_resumed_iff notes_sorted notes_keyed hpage
  have hfirst : (notesByDate.taken notes).getLast? = some (foundNote "b") := by cbv
  cases hfirst.symm.trans hlast
  have hgone : Assoc.find? (Assoc.erase notes ⟨"n", "b"⟩) (foundNote "b").key = none := by decide
  obtain ⟨hiff, -⟩ := hlater _ (Assoc.sorted_erase notes_sorted _) fun item hitem => by
    rw [hgone] at hitem
    cases hitem
  have hnext : foundNote "a" ∈ notesByDate.following (Assoc.erase notes ⟨"n", "b"⟩) (foundNote "b") := by
    rw [hfollowing]
    exact List.mem_cons_self
  rcases hiff.1 (htaken.trans (congrArg (List.take 1) hfollowing).symm) with hstored | htied
  · rw [hgone] at hstored
    cases hstored
  · exact htied _ (mem_following.1 hnext).1 (mem_following.1 hnext).2 rfl

end BoundQuery

end KeyedRecords
