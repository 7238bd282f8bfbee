import KeyedRecords.Text.Utf8

/-! Text goes to bytes and comes back, and no other bytes are text. Main statements: `decode_eq_ok_iff`,
`encode_ofList`. -/

namespace KeyedRecords.Utf8

theorem toList_loop (bytes : ByteArray) (i : Nat) (read : List UInt8) :
    ByteArray.toList.loop bytes i read = read.reverse ++ bytes.data.toList.drop i := by
  rw [ByteArray.toList.loop]
  split
  · rename_i h
    have hget : bytes.get! i = bytes.data.toList[i] := by
      show bytes.data[i]! = _
      rw [getElem!_pos bytes.data i h, Array.getElem_toList]
    rw [toList_loop bytes (i + 1), List.drop_eq_getElem_cons (show i < bytes.data.toList.length from h), hget,
      List.reverse_cons, List.append_assoc]
    rfl
  · rename_i h
    rw [List.drop_of_length_le (Nat.not_lt.1 h), List.append_nil]
termination_by bytes.size - i

theorem toList_eq (bytes : ByteArray) : bytes.toList = bytes.data.toList := by
  rw [ByteArray.toList, toList_loop]
  rfl

/-- The bytes of a text are those of its characters. -/
theorem encode_ofList (cs : List Char) : encode (String.ofList cs) = cs.flatMap String.utf8EncodeChar := by
  rw [encode, toList_eq, String.toUTF8_eq_toByteArray, String.toByteArray_ofList, List.utf8Encode,
    List.toList_data_toByteArray]

/-- Text comes back from its bytes. -/
theorem decode_encode (s : String) : decode (encode s) = .ok s := by
  have hbytes : ByteArray.mk (encode s).toArray = s.toByteArray := by
    rw [encode, toList_eq]
    rfl
  have htext : String.fromUTF8? s.toByteArray = some s := dif_pos s.isValidUTF8
  rw [decode, hbytes, htext]

/-- Bytes are read if and only if they are the bytes of a text. -/
theorem decode_eq_ok_iff {bytes : List UInt8} {s : String} : decode bytes = .ok s ↔ bytes = encode s := by
  constructor
  · intro h
    rw [decode] at h
    split at h
    · rename_i read htext
      cases h
      rw [String.fromUTF8?] at htext
      split at htext
      · cases htext
        rw [encode, toList_eq]
        rfl
      · cases htext
    · cases h
  · rintro rfl
    exact decode_encode s

theorem encode_inj {s t : String} (h : encode s = encode t) : s = t := by
  have hread := decode_encode s
  rw [h, decode_encode] at hread
  exact (Except.ok.inj hread).symm

/-- An ASCII text has one byte for each of its characters. -/
theorem encode_ascii {cs : List Char} (h : ∀ c ∈ cs, c.val ≤ 127) :
    encode (String.ofList cs) = cs.map fun c => c.val.toUInt8 := by
  rw [encode_ofList]
  induction cs with
  | nil => rfl
  | cons c cs ih =>
    rw [List.flatMap_cons, ih fun d hd => h d (List.mem_cons_of_mem _ hd),
      String.utf8EncodeChar_eq_singleton (Char.utf8Size_eq_one_iff.2 (h c List.mem_cons_self))]
    rfl

end KeyedRecords.Utf8
