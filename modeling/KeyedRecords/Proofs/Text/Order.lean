import KeyedRecords.Proofs.Text.Utf8

/-! Texts compare by code point as their bytes do, and behind a common beginning as what follows it. Main statements:
`encode_lt_iff`, `append_lt_append`. -/

namespace KeyedRecords.Utf8

/-- The codes of two characters differ within both, and the first byte that differs is in their order. -/
theorem code_lt {c d : Char} (h : c < d) (rest rest' : List UInt8) :
    String.utf8EncodeChar c ++ rest < String.utf8EncodeChar d ++ rest' := by
  have hcd : c.val.toNat < d.val.toNat := h
  have hd : d.val.toNat < 1114112 := by
    have hvalid := d.valid
    simp only [UInt32.isValidChar, Nat.isValidChar] at hvalid
    omega
  simp only [String.utf8EncodeChar]
  -- The greater character has the longer code, which begins with a greater byte, or a code as long.
  repeat' split
  all_goals
    simp only [List.cons_append, List.nil_append, List.cons_lt_cons_iff, UInt8.lt_iff_toNat_lt, ← UInt8.toNat_inj,
      UInt8.toNat_ofNat']
    simp (disch := omega) only [Nat.mod_eq_of_lt]
    omega

theorem codes_lt {cs ds : List Char} (h : cs < ds) :
    cs.flatMap String.utf8EncodeChar < ds.flatMap String.utf8EncodeChar := by
  induction cs generalizing ds with
  | nil =>
    cases ds with
    | nil => exact absurd h (List.lt_irrefl [])
    | cons d ds =>
      obtain ⟨byte, code, hcode⟩ := List.exists_cons_of_ne_nil (String.utf8EncodeChar_ne_nil (c := d))
      rw [List.flatMap_cons, hcode]
      exact List.nil_lt_cons byte _
  | cons c cs ih =>
    cases ds with
    | nil => exact absurd h (List.not_lt_nil _)
    | cons d ds =>
      rw [List.flatMap_cons, List.flatMap_cons]
      rcases List.cons_lt_cons_iff.1 h with hlt | ⟨rfl, hlt⟩
      · exact code_lt hlt _ _
      · exact List.append_left_lt (ih hlt)

theorem encode_lt {s t : String} (h : s < t) : encode s < encode t := by
  rw [← String.ofList_toList (s := s), ← String.ofList_toList (s := t), encode_ofList, encode_ofList]
  exact codes_lt h

/-- A text is less than another exactly if its bytes are. -/
theorem encode_lt_iff {s t : String} : encode s < encode t ↔ s < t := by
  refine ⟨fun h => Decidable.byContradiction fun hnot => ?_, encode_lt⟩
  rcases Std.le_iff_lt_or_eq.1 (String.not_lt.1 hnot) with hlt | rfl
  · exact List.lt_asymm h (encode_lt hlt)
  · exact List.lt_irrefl _ h

theorem append_lt_append (common : String) {s t : String} (h : s < t) : common ++ s < common ++ t := by
  show (common ++ s).toList < (common ++ t).toList
  rw [String.toList_append, String.toList_append]
  exact List.append_left_lt h

end KeyedRecords.Utf8
