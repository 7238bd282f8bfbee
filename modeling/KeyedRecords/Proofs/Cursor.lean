import KeyedRecords.Cursor
import KeyedRecords.Proofs.Number.Digits
import KeyedRecords.Proofs.Text.Base64
import KeyedRecords.Proofs.Text.Split

/-! A cursor points at the key that it was made of. The length in front says where the partition key ends, so either
key may hold any text, colons and digits included. No other texts are read than those made like a cursor. Main
statements: `decode_encode`, `encode_injective`, `encode_faithful`, `decode_accepts`. -/

namespace KeyedRecords

namespace Cursor

theorem length?_toDigits {n : Nat} (h : n < UInt64.size) : length? (Nat.toDigits 10 n) = some n := by
  have hdigits : ∀ c ∈ Nat.toDigits 10 n, c.isDigit = true := fun c hc => Digits.isDigit_of_mem_toDigits hc
  have hplain : ∀ rest, Nat.toDigits 10 n ≠ '+' :: rest := by
    intro rest he
    have hplus := hdigits '+' (he ▸ List.mem_cons_self)
    cases hplus
  unfold length?
  split
  · rename_i rest he
    exact absurd he (hplain rest)
  · dsimp only
    rw [Digits.nat?_toDigits, Option.filter_some, if_pos (decide_eq_true h)]

/-- A token in its parts: the digits of the length hold no colon, so the first one ends them. -/
theorem splitFirst?_token (key : Key) : Text.splitFirst? ':' (token key).toList =
    some (Nat.toDigits 10 key.partition.utf8ByteSize, key.partition.toList ++ key.sort.toList) := by
  have htoken : (token key).toList = Nat.toDigits 10 key.partition.utf8ByteSize ++
      ':' :: (key.partition.toList ++ key.sort.toList) := by
    have hlength : (toString key.partition.utf8ByteSize).toList =
        Nat.toDigits 10 key.partition.utf8ByteSize := String.toList_ofList
    rw [token, String.toList_append, String.toList_append, String.toList_append, hlength,
      List.append_assoc, List.append_assoc]
    rfl
  have hcolon : ':' ∉ Nat.toDigits 10 key.partition.utf8ByteSize := by
    intro hmem
    have hdigit := Digits.isDigit_of_mem_toDigits hmem
    cases hdigit
  rw [htoken, Text.splitFirst?_append hcolon]

/-- The keys in a token are cut apart where the length says. -/
theorem splitAtByte?_keys (key : Key) :
    Text.splitAtByte? key.partition.utf8ByteSize (key.partition.toList ++ key.sort.toList) =
      some (key.partition.toList, key.sort.toList) := by
  have hsplit := Text.splitAtByte?_append key.partition.toList key.sort.toList
  rwa [String.ofList_toList] at hsplit

theorem readToken_token {key : Key} (h : key.partition.utf8ByteSize < UInt64.size) :
    readToken (token key) = .ok key := by
  simp only [readToken, splitFirst?_token, length?_toDigits h, splitAtByte?_keys, String.ofList_toList]
  rfl

/-- Different keys have different tokens, however long they are. -/
theorem token_injective : Function.Injective token := by
  intro key other h
  have hparts := splitFirst?_token key
  rw [h, splitFirst?_token other] at hparts
  obtain ⟨hdigits, hkeys⟩ := Prod.mk.inj (Option.some.inj hparts)
  have hlength : other.partition.utf8ByteSize = key.partition.utf8ByteSize := by
    have hread := Digits.nat?_toDigits other.partition.utf8ByteSize
    rw [hdigits, Digits.nat?_toDigits] at hread
    exact (Option.some.inj hread).symm
  have hcut := splitAtByte?_keys other
  rw [hlength, hkeys, splitAtByte?_keys key] at hcut
  obtain ⟨hpartition, hsort⟩ := Prod.mk.inj (Option.some.inj hcut)
  exact congrArg₂ Key.mk (String.toList_inj.1 hpartition) (String.toList_inj.1 hsort)

/-- A token in base64 is read as itself. -/
theorem readText_encoded (token : String) :
    readText (String.ofList (Base64.encode (Utf8.encode token))) = readToken token := by
  rw [readText, Base64.decode_encode]
  show (Utf8.decode (Utf8.encode token)).mapError CursorFault.utf8 >>= readToken = _
  rw [Utf8.decode_encode]
  rfl

/-- A cursor points at the key that it was made of, if the length of the partition key fits a 64-bit word. -/
theorem decode_encode {key : Key} (h : key.partition.utf8ByteSize < UInt64.size) :
    (encode key).decode = .ok key := by
  rw [decode, encode, readText_encoded, readToken_token h]
  rfl

/-- Different keys never share a cursor. -/
theorem encode_injective : Function.Injective encode := by
  intro key other h
  have htext : String.ofList (Base64.encode (Utf8.encode (token key))) =
      String.ofList (Base64.encode (Utf8.encode (token other))) := congrArg Cursor.text h
  have hbytes := Base64.decode_encode (Utf8.encode (token key))
  rw [htext, Base64.decode_encode] at hbytes
  have htoken := Utf8.decode_encode (token key)
  rw [← Except.ok.inj hbytes, Utf8.decode_encode] at htoken
  exact token_injective (Except.ok.inj htoken).symm

/-- Whatever characters a key has, its cursor points at it and no other key has that cursor, and the text of the
cursor is read as the same one. The length of the partition key has to fit a 64-bit word, as that of every text in
memory does. -/
theorem encode_faithful {key : Key} (h : key.partition.utf8ByteSize < UInt64.size) :
    (encode key).decode = .ok key ∧ ofText (encode key).text = .ok (encode key) ∧
      ∀ other, encode other = encode key → other = key := by
  refine ⟨decode_encode h, ?_, fun other hother => encode_injective hother⟩
  exact bind_eq_ok.2 ⟨key, decode_encode h, rfl⟩

/-- A key that begins like a token itself, and another one with the same characters cut elsewhere. -/
theorem encode_faithful_digits :
    (encode ⟨"12:ä", "3:日"⟩).decode = .ok ⟨"12:ä", "3:日"⟩ ∧
      ofText (encode ⟨"12:ä", "3:日"⟩).text = .ok (encode ⟨"12:ä", "3:日"⟩) ∧
      encode ⟨"12:ä3", ":日"⟩ ≠ encode ⟨"12:ä", "3:日"⟩ := by
  obtain ⟨hdecode, htext, hother⟩ := @encode_faithful ⟨"12:ä", "3:日"⟩ (by decide)
  refine ⟨hdecode, htext, fun h => ?_⟩
  have hkey := hother _ h
  simp at hkey

/-! ## Which texts are cursors -/

/-- Whether a text is made like a cursor: base64 of a length that fits a 64-bit word, written in decimal digits after
an optional plus, a colon, and the rest. -/
def Wraps (text : String) (length : Nat) (rest : String) : Prop :=
  ∃ plus digits, (plus = "" ∨ plus = "+") ∧ digits ≠ "" ∧ (∀ c ∈ digits.toList, c.isDigit = true) ∧
    Nat.ofDigitChars 10 digits.toList 0 = length ∧ length < 2 ^ 64 ∧
    text = String.ofList (Base64.encode (Utf8.encode (plus ++ digits ++ ":" ++ rest)))

theorem length?_eq_some_iff {cs : List Char} {n : Nat} : length? cs = some n ↔
    ∃ digits, (cs = digits ∨ cs = '+' :: digits) ∧ Digits.nat? digits = some n ∧ n < UInt64.size := by
  have hfilter : ∀ digits, (Digits.nat? digits).filter (· < UInt64.size) = some n ↔
      Digits.nat? digits = some n ∧ n < UInt64.size := by
    intro digits
    rw [Option.filter_eq_some_iff, decide_eq_true_iff]
  unfold length?
  split
  · rename_i rest
    rw [hfilter]
    constructor
    · rintro ⟨hdigits, hn⟩
      exact ⟨rest, Or.inr rfl, hdigits, hn⟩
    · rintro ⟨digits, rfl | he, hdigits, hn⟩
      · cases hdigits
      · cases he
        exact ⟨hdigits, hn⟩
  · rename_i hplain
    rw [hfilter]
    constructor
    · rintro ⟨hdigits, hn⟩
      exact ⟨cs, Or.inl rfl, hdigits, hn⟩
    · rintro ⟨digits, rfl | rfl, hdigits, hn⟩
      · exact ⟨hdigits, hn⟩
      · exact absurd rfl (hplain digits)

/-- The length ends at the first colon, as there is none among plus and digits. -/
theorem wraps_iff {text : String} {length : Nat} {rest : String} : Wraps text length rest ↔
    ∃ token front, text = String.ofList (Base64.encode (Utf8.encode token)) ∧
      Text.splitFirst? ':' token.toList = some (front, rest.toList) ∧ length? front = some length := by
  constructor
  · rintro ⟨plus, digits, hplus, hne, hdigits, hvalue, hlength, rfl⟩
    have hread : Digits.nat? digits.toList = some length :=
      Digits.nat?_eq_some_iff.2 ⟨fun h => hne (String.toList_eq_nil_iff.1 h), hdigits, hvalue⟩
    have hcolon : ':' ∉ (plus ++ digits).toList := by
      rw [String.toList_append, List.mem_append]
      rintro (hmem | hmem)
      · rcases hplus with rfl | rfl <;> simp at hmem
      · cases hdigits ':' hmem
    refine ⟨_, (plus ++ digits).toList, rfl, ?_, length?_eq_some_iff.2 ⟨digits.toList, ?_, hread, hlength⟩⟩
    · have htoken : (plus ++ digits ++ ":" ++ rest).toList = (plus ++ digits).toList ++ ':' :: rest.toList := by simp
      rw [htoken]
      exact Text.splitFirst?_append hcolon rest.toList
    · rcases hplus with rfl | rfl
      · exact Or.inl (by simp)
      · exact Or.inr (by simp)
  · rintro ⟨token, front, rfl, hsplit, hlength⟩
    obtain ⟨htoken, -⟩ := Text.splitFirst?_eq_some_iff.1 hsplit
    obtain ⟨digits, hfront, hread, hlt⟩ := length?_eq_some_iff.1 hlength
    obtain ⟨hne, hdigits, hvalue⟩ := Digits.nat?_eq_some_iff.1 hread
    have hdigits' : (String.ofList digits).toList = digits := String.toList_ofList
    have hwraps : ∀ plus : String, plus.toList ++ digits = front →
        plus ++ String.ofList digits ++ ":" ++ rest = token := by
      rintro plus rfl
      rw [← String.toList_inj, htoken]
      simp
    rcases hfront with rfl | rfl
    · refine ⟨"", String.ofList front, Or.inl rfl, ?_, hdigits'.symm ▸ hdigits, hdigits'.symm ▸ hvalue, hlt, ?_⟩
      · simpa using hne
      · rw [hwraps "" rfl]
    · refine ⟨"+", String.ofList digits, Or.inr rfl, ?_, hdigits'.symm ▸ hdigits, hdigits'.symm ▸ hvalue, hlt, ?_⟩
      · simpa using hne
      · rw [hwraps "+" rfl]

theorem readText_eq_ok_iff {text : String} {key : Key} : readText text = .ok key ↔
    ∃ token, text = String.ofList (Base64.encode (Utf8.encode token)) ∧ readToken token = .ok key := by
  constructor
  · rw [readText, bind_eq_ok]
    rintro ⟨bytes, hbytes, hdecoded⟩
    obtain ⟨token, htoken, hread⟩ := bind_eq_ok.1 hdecoded
    obtain rfl := Utf8.decode_eq_ok_iff.1 (mapError_eq_ok.1 htoken)
    exact ⟨token, Base64.decode_eq_ok_iff.1 (mapError_eq_ok.1 hbytes), hread⟩
  · rintro ⟨token, rfl, hread⟩
    rw [readText_encoded, hread]

theorem readToken_eq {token : String} {front rest : List Char} {length : Nat}
    (hsplit : Text.splitFirst? ':' token.toList = some (front, rest)) (hlength : length? front = some length) :
    readToken token = match Text.splitAtByte? length rest with
      | none => .error .lengthOutOfRange
      | some (partition, sort) => .ok ⟨String.ofList partition, String.ofList sort⟩ := by
  rw [readToken, hsplit]
  simp only [hlength]
  rfl

theorem exists_of_readToken {token : String} {key : Key} (h : readToken token = .ok key) :
    ∃ front rest length, Text.splitFirst? ':' token.toList = some (front, rest) ∧ length? front = some length := by
  rw [readToken] at h
  split at h
  · cases h
  · rename_i front rest hsplit
    cases hlength : length? front with
    | none =>
      rw [hlength] at h
      cases h
    | some length => exact ⟨front, rest, length, hsplit, hlength⟩

/-- The length in a cursor says where the partition key ends. -/
theorem decode_eq_ok_iff {text : String} {key : Key} : decode ⟨text⟩ = .ok key ↔
    Wraps text key.partition.utf8ByteSize (key.partition ++ key.sort) := by
  rw [decode, mapError_eq_ok, readText_eq_ok_iff, wraps_iff]
  constructor
  · rintro ⟨token, htext, h⟩
    obtain ⟨front, rest, length, hsplit, hlength⟩ := exists_of_readToken h
    rw [readToken_eq hsplit hlength] at h
    split at h
    · cases h
    · rename_i partition sort hcut
      cases h
      obtain ⟨rfl, rfl⟩ := Text.splitAtByte?_eq_some_iff.1 hcut
      exact ⟨token, front, htext, by simpa using hsplit, hlength⟩
  · rintro ⟨token, front, htext, hsplit, hlength⟩
    refine ⟨token, htext, ?_⟩
    rw [readToken_eq hsplit hlength, String.toList_append, splitAtByte?_keys]
    simp

/-- A length beyond the rest, or inside a character of it, is refused. -/
theorem decode_outOfRange {text rest : String} {length : Nat} (h : Wraps text length rest)
    (hcut : ¬ String.Pos.Raw.IsValid rest ⟨length⟩) :
    decode ⟨text⟩ = .error (.invalidCursor .lengthOutOfRange) := by
  obtain ⟨token, front, rfl, hsplit, hlength⟩ := wraps_iff.1 h
  have hnone : Text.splitAtByte? length rest.toList = none := by
    rw [Option.eq_none_iff_forall_ne_some]
    rintro ⟨partition, sort⟩ hsome
    obtain ⟨hrest, hsize⟩ := Text.splitAtByte?_eq_some_iff.1 hsome
    refine hcut (String.Pos.Raw.isValid_iff_exists_append.2 ⟨String.ofList partition, String.ofList sort, ?_, ?_⟩)
    · rw [← String.ofList_append, ← hrest, String.ofList_toList]
    · rw [← hsize]
      rfl
  rw [decode, readText_encoded, readToken_eq hsplit hlength, hnone]
  rfl

/-- Every refusal is one of a cursor. -/
theorem exists_fault {text : String} (h : ∀ key, decode ⟨text⟩ ≠ .ok key) :
    ∃ fault, decode ⟨text⟩ = .error (.invalidCursor fault) := by
  rw [decode] at h ⊢
  cases hread : readText text with
  | ok key =>
    rw [hread] at h
    exact absurd rfl (h key)
  | error fault => exact ⟨fault, rfl⟩

theorem ofText_eq (text : String) : ofText text = (decode ⟨text⟩).map fun _ => ⟨text⟩ := by
  rw [ofText]
  cases decode ⟨text⟩ <;> rfl

/-- A text is a cursor if and only if it is base64 of a length, a colon and a rest that can be cut after so many bytes.
The cursor then points at the two parts. Every other text is refused as a cursor, and a text from outside is taken if
and only if it points at a key. -/
theorem decode_accepts (text : String) :
    (∀ key, decode ⟨text⟩ = .ok key ↔
      ∃ length rest, Wraps text length rest ∧ rest = key.partition ++ key.sort ∧ key.partition.utf8ByteSize = length) ∧
    ((∃ key, decode ⟨text⟩ = .ok key) ↔
      ∃ length rest, Wraps text length rest ∧ length ≤ rest.utf8ByteSize ∧ String.Pos.Raw.IsValid rest ⟨length⟩) ∧
    (∀ length rest, Wraps text length rest → ¬ String.Pos.Raw.IsValid rest ⟨length⟩ →
      decode ⟨text⟩ = .error (.invalidCursor .lengthOutOfRange)) ∧
    ((¬ ∃ key, decode ⟨text⟩ = .ok key) → ∃ fault, decode ⟨text⟩ = .error (.invalidCursor fault)) ∧
    (∀ cursor, ofText text = .ok cursor ↔ cursor = ⟨text⟩ ∧ ∃ key, decode ⟨text⟩ = .ok key) ∧
    ∀ e, ofText text = .error e ↔ decode ⟨text⟩ = .error e := by
  refine ⟨fun key => ?_, ?_, fun length rest => decode_outOfRange, fun h => exists_fault (not_exists.1 h),
    fun cursor => ?_, fun e => ?_⟩
  · rw [decode_eq_ok_iff]
    constructor
    · intro h
      exact ⟨_, _, h, rfl, rfl⟩
    · rintro ⟨_, _, h, rfl, rfl⟩
      exact h
  · simp only [decode_eq_ok_iff]
    constructor
    · rintro ⟨key, h⟩
      have hvalid : String.Pos.Raw.IsValid (key.partition ++ key.sort) ⟨key.partition.utf8ByteSize⟩ :=
        String.Pos.Raw.isValid_iff_exists_append.2 ⟨_, _, rfl, rfl⟩
      exact ⟨_, _, h, hvalid.le_utf8ByteSize, hvalid⟩
    · rintro ⟨length, rest, h, -, hvalid⟩
      obtain ⟨partition, sort, rfl, hlength⟩ := String.Pos.Raw.isValid_iff_exists_append.1 hvalid
      cases hlength
      exact ⟨⟨partition, sort⟩, h⟩
  · rw [ofText_eq]
    cases decode ⟨text⟩ <;> simp [Except.map, eq_comm]
  · rw [ofText_eq]
    cases decode ⟨text⟩ <;> simp [Except.map]

end Cursor
end KeyedRecords
