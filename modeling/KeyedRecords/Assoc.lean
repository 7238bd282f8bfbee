/-! A finite map is a list of pairs in strictly increasing key order. `insert` and `erase` keep that order, so two
such lists that answer every look-up alike are equal. -/

namespace KeyedRecords.Assoc

variable {κ α β : Type}

def find? [DecidableEq κ] (m : List (κ × α)) (k : κ) : Option α :=
  match m with
  | [] => none
  | (key, value) :: rest => if key = k then some value else find? rest k

def contains [DecidableEq κ] (m : List (κ × α)) (k : κ) : Bool := (find? m k).isSome

/-- The map with a value set at its place in the order. -/
def insert [DecidableEq κ] [LT κ] [DecidableLT κ] (m : List (κ × α)) (k : κ) (v : α) :
    List (κ × α) :=
  match m with
  | [] => [(k, v)]
  | (key, value) :: rest =>
    if k < key then (k, v) :: (key, value) :: rest
    else if key = k then (k, v) :: rest
    else (key, value) :: insert rest k v

def erase [DecidableEq κ] (m : List (κ × α)) (k : κ) : List (κ × α) := m.filter (·.1 ≠ k)

/-- The first map with the pairs of the second set in it. -/
def overlay [DecidableEq κ] [LT κ] [DecidableLT κ] (m pairs : List (κ × α)) : List (κ × α) :=
  pairs.foldl (fun acc (k, v) => insert acc k v) m

/-- The map of some pairs; of two with one key the later counts. -/
def ofList [DecidableEq κ] [LT κ] [DecidableLT κ] (pairs : List (κ × α)) : List (κ × α) :=
  overlay [] pairs

def keys (m : List (κ × α)) : List κ := m.map (·.1)

def mapValues (f : α → β) (m : List (κ × α)) : List (κ × β) := m.map fun (k, v) => (k, f v)

def present (m : List (κ × Option α)) : List (κ × α) := m.filterMap fun (k, v?) => v?.map (k, ·)

/-- Strictly increasing keys: the lists that stand for maps. -/
def Sorted [LT κ] (m : List (κ × α)) : Prop := m.Pairwise (·.1 < ·.1)

@[simp] theorem find?_nil [DecidableEq κ] (k : κ) : find? ([] : List (κ × α)) k = none := rfl

@[simp] theorem find?_insert_self [DecidableEq κ] [LT κ] [DecidableLT κ] (m : List (κ × α)) (k : κ)
    (v : α) : find? (insert m k v) k = some v := by
  induction m with
  | nil => simp [insert, find?]
  | cons p m ih =>
    obtain ⟨key, value⟩ := p
    simp only [insert]
    split
    · simp [find?]
    · split
      · simp [find?]
      · rename_i h; simp [find?, h, ih]

theorem find?_insert_of_ne [DecidableEq κ] [LT κ] [DecidableLT κ] (m : List (κ × α)) {k other : κ}
    (v : α) (h : other ≠ k) : find? (insert m k v) other = find? m other := by
  induction m with
  | nil => simp [insert, find?, Ne.symm h]
  | cons p m ih =>
    obtain ⟨key, value⟩ := p
    simp only [insert]
    split
    · simp [find?, Ne.symm h]
    · split
      · rename_i _ hk; subst hk; simp [find?, Ne.symm h]
      · simp [find?, ih]

theorem find?_erase_self [DecidableEq κ] (m : List (κ × α)) (k : κ) : find? (erase m k) k = none := by
  induction m with
  | nil => rfl
  | cons p m ih =>
    by_cases h : p.1 = k
    · simpa [erase, h] using ih
    · simpa [erase, h, find?] using ih

theorem find?_erase_of_ne [DecidableEq κ] (m : List (κ × α)) {k other : κ} (h : other ≠ k) :
    find? (erase m k) other = find? m other := by
  induction m with
  | nil => rfl
  | cons p m ih =>
    by_cases hk : p.1 = k
    · simpa [erase, hk, find?, Ne.symm h] using ih
    · simp only [erase, ne_eq, hk, not_false_eq_true, decide_true, List.filter_cons_of_pos, find?]
      simp only [erase] at ih
      rw [ih]

theorem find?_insert [DecidableEq κ] [LT κ] [DecidableLT κ] (m : List (κ × α)) (k other : κ) (v : α) :
    find? (insert m k v) other = if other = k then some v else find? m other := by
  split
  · rename_i h
    rw [h, find?_insert_self]
  · rename_i h
    exact find?_insert_of_ne m v h

theorem find?_erase [DecidableEq κ] (m : List (κ × α)) (k other : κ) :
    find? (erase m k) other = if other = k then none else find? m other := by
  split
  · rename_i h
    rw [h, find?_erase_self]
  · rename_i h
    exact find?_erase_of_ne m h

theorem find?_eq_none_iff [DecidableEq κ] {m : List (κ × α)} {k : κ} : find? m k = none ↔ k ∉ keys m := by
  induction m with
  | nil => simp [keys]
  | cons p m ih =>
    by_cases h : p.1 = k
    · simp [find?, keys, h]
    · simpa [find?, keys, h, Ne.symm h] using ih

theorem mem_of_find? [DecidableEq κ] {m : List (κ × α)} {k : κ} {v : α} (h : find? m k = some v) :
    (k, v) ∈ m := by
  induction m with
  | nil => simp at h
  | cons p m ih =>
    by_cases hk : p.1 = k
    · have hv : p.2 = v := by simpa [find?, hk] using h
      subst hk hv
      exact List.mem_cons_self
    · exact List.mem_cons_of_mem _ (ih (by simpa [find?, hk] using h))

/-- In a list that names no key twice every pair is found. -/
theorem find?_of_mem [DecidableEq κ] {m : List (κ × α)} (hm : (keys m).Nodup) {k : κ} {v : α}
    (h : (k, v) ∈ m) : find? m k = some v := by
  induction m with
  | nil => simp at h
  | cons p m ih =>
    have ⟨hfirst, hrest⟩ := List.nodup_cons.1 hm
    rcases List.mem_cons.1 h with rfl | h
    · simp [find?]
    · have hne : p.1 ≠ k := fun he => hfirst (List.mem_map.2 ⟨_, h, he.symm⟩)
      simpa [find?, hne] using ih hrest h

theorem find?_overlay [DecidableEq κ] [LT κ] [DecidableLT κ] (m : List (κ × α)) {pairs : List (κ × α)}
    (h : (keys pairs).Nodup) (k : κ) : find? (overlay m pairs) k = (find? pairs k).or (find? m k) := by
  induction pairs generalizing m with
  | nil => rfl
  | cons p pairs ih =>
    have ⟨hfirst, hrest⟩ := List.nodup_cons.1 h
    have hstep : find? (overlay m (p :: pairs)) k = (find? pairs k).or (find? (insert m p.1 p.2) k) :=
      ih (insert m p.1 p.2) hrest
    by_cases hk : p.1 = k
    · have habsent : find? pairs k = none := find?_eq_none_iff.2 (hk ▸ hfirst)
      rw [hstep, habsent, ← hk]
      simp [find?]
    · rw [hstep, find?_insert_of_ne m p.2 (Ne.symm hk)]
      simp [find?, hk]

theorem find?_ofList [DecidableEq κ] [LT κ] [DecidableLT κ] {pairs : List (κ × α)}
    (h : (keys pairs).Nodup) (k : κ) : find? (ofList pairs) k = find? pairs k := by
  rw [ofList, find?_overlay [] h, find?_nil, Option.or_none]

theorem find?_filter [DecidableEq κ] (m : List (κ × α)) (p : κ → Bool) (k : κ) :
    find? (m.filter fun entry => p entry.1) k = if p k then find? m k else none := by
  induction m with
  | nil => simp
  | cons entry m ih =>
    obtain ⟨key, value⟩ := entry
    rw [List.filter_cons]
    by_cases hp : p key
    · rw [if_pos hp, find?, find?, ih]
      by_cases hk : key = k
      · rw [if_pos hk, if_pos hk, if_pos (hk ▸ hp)]
      · rw [if_neg hk, if_neg hk]
    · rw [if_neg hp, ih, find?]
      by_cases hk : key = k
      · rw [if_neg (hk ▸ hp), if_neg (hk ▸ hp)]
      · rw [if_neg hk]

theorem find?_filter_of_nodup [DecidableEq κ] {m : List (κ × α)} (h : (keys m).Nodup) (p : κ × α → Bool) (k : κ) :
    find? (m.filter p) k = (find? m k).filter fun v => p (k, v) := by
  induction m with
  | nil => rfl
  | cons entry m ih =>
    obtain ⟨key, value⟩ := entry
    have ⟨hfirst, hrest⟩ := List.nodup_cons.1 h
    by_cases hk : key = k
    · subst hk
      have habsent : find? m key = none := find?_eq_none_iff.2 hfirst
      rw [List.filter_cons]
      split
      · rename_i hp
        simp [find?, Option.filter_some, hp]
      · rename_i hp
        rw [ih hrest, habsent]
        simp [find?, Option.filter_some, hp]
    · rw [List.filter_cons]
      split
      · simp [find?, hk, ih hrest]
      · simp [find?, hk, ih hrest]

theorem find?_append [DecidableEq κ] (a b : List (κ × α)) (k : κ) :
    find? (a ++ b) k = (find? a k).or (find? b k) := by
  induction a with
  | nil => rfl
  | cons entry a ih =>
    by_cases hk : entry.1 = k
    · simp [find?, hk]
    · simp [find?, hk, ih]

/-- Of pairs with one key the last is found. -/
theorem find?_overlay_reverse [DecidableEq κ] [LT κ] [DecidableLT κ] (m pairs : List (κ × α)) (k : κ) :
    find? (overlay m pairs) k = (find? pairs.reverse k).or (find? m k) := by
  induction pairs generalizing m with
  | nil => rfl
  | cons p pairs ih =>
    have hstep : find? (overlay m (p :: pairs)) k = (find? pairs.reverse k).or (find? (insert m p.1 p.2) k) :=
      ih (insert m p.1 p.2)
    rw [hstep, List.reverse_cons, find?_append, find?_insert, Option.or_assoc]
    by_cases hk : p.1 = k
    · simp [find?, hk]
    · simp [find?, hk, Ne.symm hk]

theorem find?_ofList_reverse [DecidableEq κ] [LT κ] [DecidableLT κ] (pairs : List (κ × α)) (k : κ) :
    find? (ofList pairs) k = find? pairs.reverse k := by
  rw [ofList, find?_overlay_reverse, find?_nil, Option.or_none]

theorem find?_ofList_eq_none_iff [DecidableEq κ] [LT κ] [DecidableLT κ] {pairs : List (κ × α)} {k : κ} :
    find? (ofList pairs) k = none ↔ k ∉ keys pairs := by
  rw [find?_ofList_reverse, find?_eq_none_iff]
  simp [keys]

/-- The last of some pairs is the last to be set. -/
theorem ofList_concat [DecidableEq κ] [LT κ] [DecidableLT κ] (pairs : List (κ × α)) (k : κ) (v : α) :
    ofList (pairs ++ [(k, v)]) = insert (ofList pairs) k v := by
  simp [ofList, overlay, List.foldl_append]

theorem mapValues_insert [DecidableEq κ] [LT κ] [DecidableLT κ] (f : α → β) (m : List (κ × α)) (k : κ) (v : α) :
    mapValues f (insert m k v) = insert (mapValues f m) k (f v) := by
  induction m with
  | nil => rfl
  | cons p m ih =>
    obtain ⟨key, value⟩ := p
    simp only [mapValues, List.map_cons, insert]
    split
    · rfl
    · split
      · rfl
      · exact congrArg _ ih

/-- Changing the values of the entries under some keys changes what stands in them. -/
theorem map_filter_values (f : α → β) (p : κ → Bool) (m : List (κ × α)) :
    (m.filter fun entry => p entry.1).map (fun entry => f entry.2) =
      ((mapValues f m).filter fun entry => p entry.1).map (·.2) := by
  rw [mapValues, List.filter_map, List.map_map]
  rfl

/-! ## Order

`insert` and `erase` keep the keys increasing, and look-ups alone tell two sorted lists apart. -/

theorem mem_insert [DecidableEq κ] [LT κ] [DecidableLT κ] {m : List (κ × α)} {k : κ} {v : α} {p : κ × α}
    (h : p ∈ insert m k v) : p = (k, v) ∨ p ∈ m := by
  induction m with
  | nil => left; simpa [insert] using h
  | cons q m ih =>
    obtain ⟨key, value⟩ := q
    simp only [insert] at h
    split at h
    · rcases List.mem_cons.1 h with rfl | h
      · exact Or.inl rfl
      · exact Or.inr h
    · split at h
      · rcases List.mem_cons.1 h with rfl | h
        · exact Or.inl rfl
        · exact Or.inr (List.mem_cons_of_mem _ h)
      · rcases List.mem_cons.1 h with rfl | h
        · exact Or.inr List.mem_cons_self
        · rcases ih h with rfl | h
          · exact Or.inl rfl
          · exact Or.inr (List.mem_cons_of_mem _ h)

theorem sorted_insert [DecidableEq κ] [LT κ] [DecidableLT κ]
    [Trans (· < · : κ → κ → Prop) (· < ·) (· < ·)] [Std.Trichotomous (· < · : κ → κ → Prop)]
    {m : List (κ × α)} (h : Sorted m) (k : κ) (v : α) : Sorted (insert m k v) := by
  induction m with
  | nil => exact List.pairwise_singleton _ _
  | cons q m ih =>
    obtain ⟨key, value⟩ := q
    have ⟨first, rest⟩ := List.pairwise_cons.1 h
    simp only [insert]
    split
    · rename_i hlt
      refine List.pairwise_cons.2 ⟨?_, h⟩
      intro p hp
      rcases List.mem_cons.1 hp with rfl | hp
      · exact hlt
      · exact Trans.trans hlt (first p hp)
    · rename_i hlt
      split
      · rename_i heq
        subst heq
        exact List.pairwise_cons.2 ⟨first, rest⟩
      · rename_i hne
        have hgt : key < k := Decidable.byContradiction fun hgt =>
          hne (Std.Trichotomous.trichotomous key k hgt hlt)
        refine List.pairwise_cons.2 ⟨?_, ih rest⟩
        intro p hp
        rcases mem_insert hp with rfl | hp
        · exact hgt
        · exact first p hp

theorem mem_ofList [DecidableEq κ] [LT κ] [DecidableLT κ] {pairs : List (κ × α)} {p : κ × α}
    (h : p ∈ ofList pairs) : p ∈ pairs := by
  have hoverlay : ∀ (pairs m : List (κ × α)), p ∈ overlay m pairs → p ∈ m ∨ p ∈ pairs := by
    intro pairs
    induction pairs with
    | nil => exact fun m hm => Or.inl hm
    | cons q pairs ih =>
      intro m hm
      rcases ih _ hm with hm | hm
      · rcases mem_insert hm with rfl | hm
        · exact Or.inr List.mem_cons_self
        · exact Or.inl hm
      · exact Or.inr (List.mem_cons_of_mem _ hm)
  exact (hoverlay pairs [] h).resolve_left List.not_mem_nil

theorem sorted_erase [DecidableEq κ] [LT κ] {m : List (κ × α)} (h : Sorted m) (k : κ) :
    Sorted (erase m k) := h.filter _

theorem sorted_overlay [DecidableEq κ] [LT κ] [DecidableLT κ]
    [Trans (· < · : κ → κ → Prop) (· < ·) (· < ·)] [Std.Trichotomous (· < · : κ → κ → Prop)]
    {m : List (κ × α)} (h : Sorted m) (pairs : List (κ × α)) : Sorted (overlay m pairs) := by
  induction pairs generalizing m with
  | nil => exact h
  | cons p pairs ih => exact ih (sorted_insert h p.1 p.2)

theorem sorted_ofList [DecidableEq κ] [LT κ] [DecidableLT κ]
    [Trans (· < · : κ → κ → Prop) (· < ·) (· < ·)] [Std.Trichotomous (· < · : κ → κ → Prop)]
    (pairs : List (κ × α)) : Sorted (ofList pairs) := sorted_overlay List.Pairwise.nil pairs

theorem Sorted.nodup [LT κ] [Std.Irrefl (· < · : κ → κ → Prop)] {m : List (κ × α)} (h : Sorted m) :
    (keys m).Nodup := by
  refine List.Pairwise.map _ (fun a b hlt he => ?_) h
  rw [he] at hlt
  exact Std.Irrefl.irrefl (r := (· < · : κ → κ → Prop)) b.1 hlt

/-- A key before all keys of a list has no value in it. -/
theorem find?_eq_none_of_lt [DecidableEq κ] [LT κ] [Std.Irrefl (· < · : κ → κ → Prop)]
    {m : List (κ × α)} {k : κ} (h : ∀ p ∈ m, k < p.1) : find? m k = none := by
  induction m with
  | nil => rfl
  | cons p m ih =>
    have hne : p.1 ≠ k := fun heq => Std.Irrefl.irrefl k (heq ▸ h p List.mem_cons_self)
    simp only [find?, hne, if_false]
    exact ih fun q hq => h q (List.mem_cons_of_mem _ hq)

/-- Setting or erasing the value at a key changes a sorted list in one place. -/
theorem Sorted.split [DecidableEq κ] [LT κ] [DecidableLT κ] [Std.Irrefl (· < · : κ → κ → Prop)]
    [Trans (· < · : κ → κ → Prop) (· < ·) (· < ·)] {m : List (κ × α)} (h : Sorted m) {k : κ} {v : α}
    (hfind : find? m k = some v) : ∃ before after, m = before ++ (k, v) :: after ∧
      (∀ w, insert m k w = before ++ (k, w) :: after) ∧ erase m k = before ++ after := by
  induction m with
  | nil => simp at hfind
  | cons p m ih =>
    obtain ⟨key, value⟩ := p
    have ⟨first, rest⟩ := List.pairwise_cons.1 h
    by_cases hk : key = k
    · subst hk
      have hvalue : value = v := by simpa [find?] using hfind
      subst hvalue
      refine ⟨[], m, rfl, fun w => by simp [insert, Std.Irrefl.irrefl key], ?_⟩
      have hrest : m.filter (fun p => decide (p.1 ≠ key)) = m := by
        refine List.filter_eq_self.2 fun p hp => decide_eq_true fun he => ?_
        exact Std.Irrefl.irrefl key (he ▸ first p hp)
      simp only [erase, ne_eq, not_true_eq_false, decide_false, Bool.false_eq_true, not_false_eq_true,
        List.filter_cons_of_neg]
      exact hrest
    · have hfound : find? m k = some v := by simpa [find?, hk] using hfind
      obtain ⟨before, after, hsplit, hinsert, herase⟩ := ih rest hfound
      have hlt : key < k := first (k, v) (mem_of_find? hfound)
      have hgt : ¬ k < key := fun hgt => Std.Irrefl.irrefl key (Trans.trans hlt hgt)
      refine ⟨(key, value) :: before, after, by rw [hsplit]; rfl, fun w => ?_, ?_⟩
      · simp [insert, hgt, hk, hinsert w]
      · simp only [erase] at herase
        simp [erase, hk, ← herase]

/-- Sorted lists that answer every look-up alike are equal. -/
theorem eq_of_find?_eq [DecidableEq κ] [LT κ] [Std.Irrefl (· < · : κ → κ → Prop)]
    [Trans (· < · : κ → κ → Prop) (· < ·) (· < ·)] [Std.Trichotomous (· < · : κ → κ → Prop)]
    {a b : List (κ × α)} (ha : Sorted a) (hb : Sorted b) (h : ∀ k, find? a k = find? b k) : a = b := by
  induction a generalizing b with
  | nil =>
    cases b with
    | nil => rfl
    | cons q b => have hq := h q.1; simp [find?] at hq
  | cons p a ih =>
    have ⟨pFirst, aSorted⟩ := List.pairwise_cons.1 ha
    cases b with
    | nil => have hp := h p.1; simp [find?] at hp
    | cons q b =>
      have ⟨qFirst, bSorted⟩ := List.pairwise_cons.1 hb
      have hkey : p.1 = q.1 := by
        refine Std.Trichotomous.trichotomous (r := (· < · : κ → κ → Prop)) p.1 q.1 ?_ ?_
        · intro hlt
          have absent := find?_eq_none_of_lt (m := q :: b) (k := p.1) fun r hr =>
            (List.mem_cons.1 hr).elim (fun e => e ▸ hlt) fun hr => Trans.trans hlt (qFirst r hr)
          have hp := h p.1
          rw [absent] at hp
          simp [find?] at hp
        · intro hlt
          have absent := find?_eq_none_of_lt (m := p :: a) (k := q.1) fun r hr =>
            (List.mem_cons.1 hr).elim (fun e => e ▸ hlt) fun hr => Trans.trans hlt (pFirst r hr)
          have hq := h q.1
          rw [absent] at hq
          simp [find?] at hq
      have hvalue : p.2 = q.2 := by simpa [find?, hkey] using h q.1
      have hpq : p = q := Prod.ext hkey hvalue
      subst hpq
      have hrest : ∀ k, find? a k = find? b k := by
        intro k
        by_cases hk : p.1 = k
        · subst hk
          rw [find?_eq_none_of_lt pFirst, find?_eq_none_of_lt qFirst]
        · simpa [find?, hk] using h k
      rw [ih aSorted bSorted hrest]

/-- Maps that answer look-ups of some keys alike have the same entries under these keys. -/
theorem filter_eq_of_find?_eq [DecidableEq κ] [LT κ] [Std.Irrefl (· < · : κ → κ → Prop)]
    [Trans (· < · : κ → κ → Prop) (· < ·) (· < ·)] [Std.Trichotomous (· < · : κ → κ → Prop)] {a b : List (κ × α)}
    (ha : Sorted a) (hb : Sorted b) {p : κ → Bool} (h : ∀ k, p k → find? a k = find? b k) :
    (a.filter fun entry => p entry.1) = b.filter fun entry => p entry.1 := by
  refine eq_of_find?_eq (List.Pairwise.filter _ ha) (List.Pairwise.filter _ hb) fun k => ?_
  rw [find?_filter, find?_filter]
  split
  · exact h k ‹_›
  · rfl

/-- The entries under some keys are the map of the pairs with these keys. -/
theorem ofList_filter [DecidableEq κ] [LT κ] [DecidableLT κ] [Std.Irrefl (· < · : κ → κ → Prop)]
    [Trans (· < · : κ → κ → Prop) (· < ·) (· < ·)] [Std.Trichotomous (· < · : κ → κ → Prop)]
    (pairs : List (κ × α)) (p : κ → Bool) :
    ofList (pairs.filter fun entry => p entry.1) = (ofList pairs).filter fun entry => p entry.1 := by
  refine eq_of_find?_eq (sorted_ofList _) (List.Pairwise.filter _ (sorted_ofList pairs)) fun k => ?_
  rw [find?_filter, find?_ofList_reverse, find?_ofList_reverse, ← List.filter_reverse, find?_filter]

/-! ## Entries without a value -/

section Present

variable {m : List (κ × Option α)}

theorem keys_present_sublist (m : List (κ × Option α)) : (keys (present m)).Sublist (keys m) := by
  induction m with
  | nil => exact .slnil
  | cons entry rest ih =>
    obtain ⟨key, _ | value⟩ := entry
    · exact ih.cons key
    · exact ih.cons_cons key

theorem find?_present [DecidableEq κ] (h : (keys m).Nodup) (k : κ) : find? (present m) k = (find? m k).join := by
  induction m with
  | nil => rfl
  | cons entry rest ih =>
    obtain ⟨key, value?⟩ := entry
    have ⟨hfirst, hrest⟩ := List.nodup_cons.1 h
    have hpresent := ih hrest
    by_cases hkey : key = k
    · subst hkey
      cases value? with
      | none =>
        have habsent : find? rest key = none := find?_eq_none_iff.2 hfirst
        simpa [present, find?, habsent] using hpresent
      | some value => simp [present, find?]
    · cases value? with
      | none => simpa [present, find?, hkey] using hpresent
      | some value => simpa [present, find?, hkey] using hpresent

end Present

/-! ## Sizes -/

theorem length_insert_of_none [DecidableEq κ] [LT κ] [DecidableLT κ] {m : List (κ × α)} {k : κ}
    (h : find? m k = none) (v : α) : (insert m k v).length = m.length + 1 := by
  induction m with
  | nil => rfl
  | cons p m ih =>
    have hne : p.1 ≠ k := by
      intro he
      simp [find?, he] at h
    have hrest : find? m k = none := by simpa [find?, hne] using h
    simp only [insert]
    split
    · rfl
    · rw [List.length_cons, ih hrest, List.length_cons]

theorem Sorted.length_insert [DecidableEq κ] [LT κ] [DecidableLT κ] [Std.Irrefl (· < · : κ → κ → Prop)]
    [Trans (· < · : κ → κ → Prop) (· < ·) (· < ·)] {m : List (κ × α)} (hm : Sorted m) {k : κ} {old : α}
    (h : find? m k = some old) (v : α) : (insert m k v).length = m.length := by
  obtain ⟨before, after, hsplit, hinsert, -⟩ := hm.split h
  rw [hinsert, hsplit, List.length_append, List.length_append, List.length_cons, List.length_cons]

theorem Sorted.length_erase [DecidableEq κ] [LT κ] [DecidableLT κ] [Std.Irrefl (· < · : κ → κ → Prop)]
    [Trans (· < · : κ → κ → Prop) (· < ·) (· < ·)] {m : List (κ × α)} (hm : Sorted m) {k : κ} {old : α}
    (h : find? m k = some old) : (erase m k).length + 1 = m.length := by
  obtain ⟨before, after, hsplit, -, herase⟩ := hm.split h
  rw [herase, hsplit, List.length_append, List.length_append, List.length_cons, Nat.add_assoc]

theorem insert_ne_nil [DecidableEq κ] [LT κ] [DecidableLT κ] (m : List (κ × α)) (k : κ) (v : α) :
    insert m k v ≠ [] := by
  intro hnil
  have hfound := find?_insert_self m k v
  rw [hnil] at hfound
  cases hfound

theorem overlay_ne_nil [DecidableEq κ] [LT κ] [DecidableLT κ] {m : List (κ × α)} (h : m ≠ [])
    (pairs : List (κ × α)) : overlay m pairs ≠ [] := by
  induction pairs generalizing m with
  | nil => exact h
  | cons p pairs ih => exact ih (insert_ne_nil m p.1 p.2)

theorem ofList_ne_nil [DecidableEq κ] [LT κ] [DecidableLT κ] {pairs : List (κ × α)} (h : pairs ≠ []) :
    ofList pairs ≠ [] := by
  cases pairs with
  | nil => exact absurd rfl h
  | cons p pairs => exact overlay_ne_nil (insert_ne_nil [] p.1 p.2) pairs

/-! ## Setting values one after another -/

theorem insert_insert_self [DecidableEq κ] [LT κ] [DecidableLT κ] [Std.Irrefl (· < · : κ → κ → Prop)]
    (m : List (κ × α)) (k : κ) (v w : α) : insert (insert m k v) k w = insert m k w := by
  induction m with
  | nil => simp [insert, Std.Irrefl.irrefl k]
  | cons p m ih =>
    obtain ⟨key, value⟩ := p
    simp only [insert]
    split
    · simp [insert, Std.Irrefl.irrefl k]
    · split
      · simp [insert, Std.Irrefl.irrefl k]
      · rename_i hlt hne
        simp [insert, hlt, hne, ih]

section Order

variable [DecidableEq κ] [LT κ] [DecidableLT κ] [Std.Irrefl (· < · : κ → κ → Prop)]
  [Trans (· < · : κ → κ → Prop) (· < ·) (· < ·)] [Std.Trichotomous (· < · : κ → κ → Prop)]

/-- Setting what is there changes nothing. -/
theorem insert_of_find? {m : List (κ × α)} (hm : Sorted m) {k : κ} {v : α} (h : find? m k = some v) :
    insert m k v = m := by
  refine eq_of_find?_eq (sorted_insert hm k v) hm fun other => ?_
  rw [find?_insert]
  split
  · rename_i hother
    rw [hother, h]
  · rfl

theorem insert_comm {m : List (κ × α)} (h : Sorted m) {k other : κ} (hne : k ≠ other) (v w : α) :
    insert (insert m k v) other w = insert (insert m other w) k v := by
  have hsorted : ∀ a b x y, Sorted (insert (insert m a x) b y) := fun _ _ _ _ => sorted_insert (sorted_insert h _ _) _ _
  refine eq_of_find?_eq (hsorted ..) (hsorted ..) fun key => ?_
  simp only [find?_insert]
  split <;> split <;> simp_all

theorem ofList_of_sorted {m : List (κ × α)} (h : Sorted m) : ofList m = m := by
  refine eq_of_find?_eq (sorted_ofList m) h fun k => ?_
  rw [find?_ofList h.nodup]

end Order

end KeyedRecords.Assoc
