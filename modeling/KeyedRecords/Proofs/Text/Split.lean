import KeyedRecords.Text.Split

/-! Where texts are cut. A text is cut at the first of a character, or after the bytes of its front, in one way only.
Main statements: `splitFirst?_eq_some_iff`, `splitAtByte?_eq_some_iff`. -/

namespace KeyedRecords.Text

/-! ## At every point -/

theorem splitAll_ne_nil (separator : Char) (cs : List Char) : splitAll separator cs ≠ [] := by
  cases cs with
  | nil => exact List.cons_ne_nil _ _
  | cons c rest =>
    rw [splitAll]
    split
    · exact List.cons_ne_nil _ _
    · split <;> exact List.cons_ne_nil _ _

theorem dotted_ne_nil (path : String) : dotted path ≠ [] :=
  fun h => splitAll_ne_nil _ _ (List.map_eq_nil_iff.1 h)

theorem splitAll_of_not_mem {separator : Char} {text : List Char} (h : separator ∉ text) :
    splitAll separator text = [text] := by
  induction text with
  | nil => rfl
  | cons c text ih =>
    rw [List.mem_cons, not_or] at h
    rw [splitAll, if_neg (Ne.symm h.1), ih h.2]

theorem splitAll_append {separator : Char} {front : List Char} (h : separator ∉ front) (rest : List Char) :
    splitAll separator (front ++ separator :: rest) = front :: splitAll separator rest := by
  induction front with
  | nil => exact if_pos rfl
  | cons c front ih =>
    rw [List.mem_cons, not_or] at h
    rw [List.cons_append, splitAll, if_neg (Ne.symm h.1), ih h.2]

theorem splitAll_intercalate {separator : Char} {parts : List (List Char)} (hne : parts ≠ [])
    (h : ∀ part ∈ parts, separator ∉ part) : splitAll separator ([separator].intercalate parts) = parts := by
  induction parts with
  | nil => exact absurd rfl hne
  | cons part rest ih =>
    obtain ⟨hpart, hrest⟩ := List.forall_mem_cons.1 h
    cases rest with
    | nil => rw [List.intercalate_singleton, splitAll_of_not_mem hpart]
    | cons next rest =>
      rw [List.intercalate_cons_cons, List.append_assoc, List.singleton_append, splitAll_append hpart,
        ih (List.cons_ne_nil _ _) hrest]

theorem not_mem_intercalate {c : Char} {separator : List Char} {parts : List (List Char)} (hseparator : c ∉ separator)
    (h : ∀ part ∈ parts, c ∉ part) : c ∉ separator.intercalate parts := by
  induction parts with
  | nil => exact List.not_mem_nil
  | cons part rest ih =>
    obtain ⟨hpart, hrest⟩ := List.forall_mem_cons.1 h
    cases rest with
    | nil => rwa [List.intercalate_singleton]
    | cons next rest =>
      rw [List.intercalate_cons_cons, List.mem_append, List.mem_append]
      rintro ((hmem | hmem) | hmem)
      · exact hpart hmem
      · exact hseparator hmem
      · exact ih hrest hmem

/-! ## At the first of a character -/

theorem splitFirst?_append {separator : Char} {front : List Char} (h : separator ∉ front) (rest : List Char) :
    splitFirst? separator (front ++ separator :: rest) = some (front, rest) := by
  induction front with
  | nil => exact if_pos rfl
  | cons c front ih =>
    rw [List.mem_cons, not_or] at h
    rw [List.cons_append, splitFirst?, if_neg (Ne.symm h.1), ih h.2]
    rfl

theorem splitFirst?_eq_some_iff {separator : Char} {cs front rest : List Char} :
    splitFirst? separator cs = some (front, rest) ↔ cs = front ++ separator :: rest ∧ separator ∉ front := by
  constructor
  · intro h
    induction cs generalizing front with
    | nil => cases h
    | cons c cs ih =>
      rw [splitFirst?] at h
      split at h
      · rename_i hc
        cases h
        exact ⟨congrArg (· :: _) hc, List.not_mem_nil⟩
      · rename_i hc
        obtain ⟨⟨before, after⟩, hsplit, he⟩ := Option.map_eq_some_iff.1 h
        cases he
        obtain ⟨rfl, hfront⟩ := ih hsplit
        refine ⟨rfl, fun hmem => ?_⟩
        rcases List.mem_cons.1 hmem with he | hmem
        · exact hc he.symm
        · exact hfront hmem
  · rintro ⟨rfl, hfront⟩
    exact splitFirst?_append hfront rest

/-! ## After some bytes -/

theorem utf8ByteSize_cons (c : Char) (cs : List Char) :
    (String.ofList (c :: cs)).utf8ByteSize = c.utf8Size + (String.ofList cs).utf8ByteSize := by
  rw [String.ofList_cons, String.utf8ByteSize_append, String.utf8ByteSize_singleton]

/-- A text is cut after the bytes of its front. -/
theorem splitAtByte?_append (front rest : List Char) :
    splitAtByte? (String.ofList front).utf8ByteSize (front ++ rest) = some (front, rest) := by
  induction front with
  | nil =>
    show splitAtByte? 0 rest = _
    unfold splitAtByte?
    rfl
  | cons c front ih =>
    have hpos := c.utf8Size_pos
    obtain ⟨n, hn⟩ : ∃ n, c.utf8Size + (String.ofList front).utf8ByteSize = n + 1 :=
      ⟨c.utf8Size + (String.ofList front).utf8ByteSize - 1, by omega⟩
    rw [utf8ByteSize_cons, hn, List.cons_append, splitAtByte?, if_pos (by omega),
      show n + 1 - c.utf8Size = (String.ofList front).utf8ByteSize by omega, ih]
    rfl

theorem splitAtByte?_eq_some_iff {n : Nat} {cs front rest : List Char} :
    splitAtByte? n cs = some (front, rest) ↔ cs = front ++ rest ∧ (String.ofList front).utf8ByteSize = n := by
  constructor
  · intro h
    fun_induction splitAtByte? n cs generalizing front with
    | case1 cs =>
      cases h
      exact ⟨rfl, rfl⟩
    | case2 => cases h
    | case3 n c cs hfits ih =>
      obtain ⟨⟨before, after⟩, hsplit, he⟩ := Option.map_eq_some_iff.1 h
      cases he
      obtain ⟨rfl, hsize⟩ := ih hsplit
      refine ⟨rfl, ?_⟩
      rw [utf8ByteSize_cons, hsize]
      omega
    | case4 => cases h
  · rintro ⟨rfl, rfl⟩
    exact splitAtByte?_append front rest

end KeyedRecords.Text
