import KeyedRecords.Error
import KeyedRecords.Proofs.Text.Utf8

/-! Bytes in base64 come back as they were, and each text that is read is the one that its bytes are written as. The
symbols are ASCII, so each is one byte of the text; groups of four are read one by one, and the last may be padded.
Main statement: `decode_eq_ok_iff`. -/

namespace KeyedRecords.Base64

/-! ## Symbols -/

def code (value : Nat) : UInt8 := (symbol value).val.toUInt8

theorem symbol_spec : ∀ value < 64, (symbol value).val ≤ 127 ∧ value? (code value) = some value := by
  decide +kernel

theorem valueAt_code {value : Nat} (h : value < 64) (offset : Nat) : valueAt (code value) offset = .ok value := by
  rw [valueAt, (symbol_spec value h).2]
  rfl

theorem code_ne_pad {value : Nat} (h : value < 64) : code value ≠ pad := by
  intro he
  have hvalue := (symbol_spec value h).2
  rw [he] at hvalue
  cases hvalue

/-! ## Groups -/

def first (a : UInt8) : Nat := a.toNat / 4
def second (a b : UInt8) : Nat := a.toNat % 4 * 16 + b.toNat / 16
def third (b c : UInt8) : Nat := b.toNat % 16 * 4 + c.toNat / 64
def fourth (c : UInt8) : Nat := c.toNat % 64

theorem first_lt (a : UInt8) : first a < 64 := by
  have ha := a.toNat_lt
  unfold first
  omega

theorem second_lt (a b : UInt8) : second a b < 64 := by
  have hb := b.toNat_lt
  unfold second
  omega

theorem third_lt (b c : UInt8) : third b c < 64 := by
  have hc := c.toNat_lt
  unfold third
  omega

theorem fourth_lt (c : UInt8) : fourth c < 64 := Nat.mod_lt _ (by decide)

/-- The values of a group hold its bytes. -/
theorem bytes_values (a b c : UInt8) : bytes (first a) (second a b) (third b c) (fourth c) = [a, b, c] := by
  have ha := a.toNat_lt
  have hb := b.toNat_lt
  have hc := c.toNat_lt
  have hfirst : first a * 4 + second a b / 16 = a.toNat := by
    unfold first second
    omega
  have hsecond : second a b % 16 * 16 + third b c / 4 = b.toNat := by
    unfold second third
    omega
  have hthird : third b c % 4 * 64 + fourth c = c.toNat := by
    unfold third fourth
    omega
  simp only [bytes, hfirst, hsecond, hthird, UInt8.ofNat_toNat]

def coded : List UInt8 → List UInt8
  | a :: b :: c :: rest => code (first a) :: code (second a b) :: code (third b c) :: code (fourth c) :: coded rest
  | [a, b] => [code (first a), code (second a b), code (third b 0), pad]
  | [a] => [code (first a), code (second a 0), pad, pad]
  | [] => []

theorem encode_ascii (data : List UInt8) : ∀ c ∈ encode data, c.val ≤ 127 := by
  have hpad : '='.val ≤ 127 := by decide
  induction data using coded.induct with
  | case1 a b c rest ih =>
    exact List.forall_mem_cons.2 ⟨(symbol_spec _ (first_lt a)).1, List.forall_mem_cons.2
      ⟨(symbol_spec _ (second_lt a b)).1, List.forall_mem_cons.2 ⟨(symbol_spec _ (third_lt b c)).1,
        List.forall_mem_cons.2 ⟨(symbol_spec _ (fourth_lt c)).1, ih⟩⟩⟩⟩
  | case2 a b =>
    exact List.forall_mem_cons.2 ⟨(symbol_spec _ (first_lt a)).1, List.forall_mem_cons.2
      ⟨(symbol_spec _ (second_lt a b)).1, List.forall_mem_cons.2 ⟨(symbol_spec _ (third_lt b 0)).1,
        List.forall_mem_singleton.2 hpad⟩⟩⟩
  | case3 a =>
    exact List.forall_mem_cons.2 ⟨(symbol_spec _ (first_lt a)).1, List.forall_mem_cons.2
      ⟨(symbol_spec _ (second_lt a 0)).1, List.forall_mem_cons.2 ⟨hpad, List.forall_mem_singleton.2 hpad⟩⟩⟩
  | case4 => exact fun c hc => absurd hc List.not_mem_nil

theorem map_encode (data : List UInt8) : (encode data).map (fun c => c.val.toUInt8) = coded data := by
  induction data using coded.induct with
  | case1 a b c rest ih =>
    rw [coded, ← ih]
    rfl
  | case2 a b => rfl
  | case3 a => rfl
  | case4 => rfl

theorem utf8_encode (data : List UInt8) : Utf8.encode (String.ofList (encode data)) = coded data := by
  rw [Utf8.encode_ascii (encode_ascii data), map_encode]

/-! ## Reading what was written -/

theorem length_coded (data : List UInt8) : (coded data).length % 4 = 0 := by
  induction data using coded.induct with
  | case1 a b c rest ih =>
    simp only [coded, List.length_cons]
    omega
  | case2 a b => simp [coded]
  | case3 a => simp [coded]
  | case4 => rfl

theorem strayLast?_coded (data : List UInt8) : strayLast? (coded data) = none := by
  unfold strayLast?
  cases (coded data).getLast? with
  | none => rfl
  | some last =>
    have hlength := length_coded data
    exact if_neg fun h => by omega

theorem lastGroup_code {value : Nat} (h : value < 64) (offset place : Nat) (rest : List UInt8) :
    lastGroup offset place (code value :: rest) =
      (lastGroup offset (place + 1) rest).map fun (values, pads) => (value :: values, pads) := by
  rw [lastGroup, if_neg (code_ne_pad h), valueAt_code h]
  show (lastGroup offset (place + 1) rest >>= _) = _
  cases lastGroup offset (place + 1) rest <;> rfl

theorem decodeLast_three (offset : Nat) (a b c : UInt8) :
    decodeLast offset (coded [a, b, c]) = .ok [a, b, c] := by
  rw [coded, coded, decodeLast, lastGroup_code (first_lt a), lastGroup_code (second_lt a b),
    lastGroup_code (third_lt b c), lastGroup_code (fourth_lt c)]
  exact congrArg Except.ok (bytes_values a b c)

theorem decodeLast_two (offset : Nat) (a b : UInt8) : decodeLast offset (coded [a, b]) = .ok [a, b] := by
  have hpadded : third b 0 % 4 = 0 := by
    show (b.toNat % 16 * 4 + 0) % 4 = 0
    omega
  have hbytes : (bytes (first a) (second a b) (third b 0) 0).take 2 = [a, b] :=
    congrArg (List.take 2) (bytes_values a b 0)
  rw [coded, decodeLast, lastGroup_code (first_lt a), lastGroup_code (second_lt a b),
    lastGroup_code (third_lt b 0)]
  show (if third b 0 % 4 ≠ 0 then _ else _) = _
  rw [if_neg (not_not_intro hpadded)]
  exact congrArg Except.ok hbytes

theorem decodeLast_one (offset : Nat) (a : UInt8) : decodeLast offset (coded [a]) = .ok [a] := by
  have hpadded : second a 0 % 16 = 0 := by
    show (a.toNat % 4 * 16 + 0) % 16 = 0
    omega
  have hbytes : (bytes (first a) (second a 0) 0 0).take 1 = [a] :=
    congrArg (List.take 1) (bytes_values a 0 0)
  rw [coded, decodeLast, lastGroup_code (first_lt a), lastGroup_code (second_lt a 0)]
  show (if second a 0 % 16 ≠ 0 then _ else _) = _
  rw [if_neg (not_not_intro hpadded)]
  exact congrArg Except.ok hbytes

theorem coded_ne_nil (first : UInt8) (rest : List UInt8) : coded (first :: rest) ≠ [] := by
  match rest with
  | _ :: _ :: _ | [_] | [] => exact List.cons_ne_nil _ _

theorem decodeGroups_coded (offset : Nat) (data : List UInt8) : decodeGroups offset (coded data) = .ok data := by
  induction data using coded.induct generalizing offset with
  | case1 a b c rest ih =>
    cases rest with
    | nil => exact decodeLast_three offset a b c
    | cons d rest =>
      rw [coded]
      obtain ⟨next, tail, htail⟩ := List.exists_cons_of_ne_nil (coded_ne_nil d rest)
      rw [htail, decodeGroups, ← htail, valueAt_code (first_lt a), valueAt_code (second_lt a b),
        valueAt_code (third_lt b c), valueAt_code (fourth_lt c), ih]
      show Except.ok (bytes (first a) (second a b) (third b c) (fourth c) ++ d :: rest) = _
      rw [bytes_values]
      rfl
  | case2 a b => exact decodeLast_two offset a b
  | case3 a => exact decodeLast_one offset a
  | case4 => rfl

/-- Bytes come back from their base64. -/
theorem decode_encode (data : List UInt8) : decode (Utf8.encode (String.ofList (encode data))) = .ok data := by
  rw [utf8_encode, decode, strayLast?_coded]
  exact decodeGroups_coded 0 data

/-! ## Texts that are read -/

theorem value?_spec : ∀ n < 256, ∀ value ∈ value? (UInt8.ofNat n), value < 64 ∧ UInt8.ofNat n = code value := by
  decide +kernel

theorem code_of_valueAt {byte : UInt8} {offset value : Nat} (h : valueAt byte offset = .ok value) :
    value < 64 ∧ byte = code value := by
  unfold valueAt at h
  cases hvalue : value? byte with
  | none =>
    rw [hvalue] at h
    cases h
  | some found =>
    rw [hvalue] at h
    cases h
    have hspec := value?_spec byte.toNat byte.toNat_lt
    rw [UInt8.ofNat_toNat] at hspec
    exact hspec value hvalue

/-- The bytes of four values hold them. -/
theorem values_bytes {a b c d : Nat} (ha : a < 64) (hb : b < 64) (hc : c < 64) (hd : d < 64) :
    ∃ x y z, bytes a b c d = [x, y, z] ∧ first x = a ∧ second x y = b ∧ third y z = c ∧ fourth z = d := by
  refine ⟨_, _, _, rfl, ?_⟩
  simp only [first, second, third, fourth, UInt8.toNat_ofNat']
  omega

/-- The last group holds the symbols of its values and then nothing but padding. -/
theorem eq_of_lastGroup {offset place pads : Nat} {group : List UInt8} {values : List Nat}
    (h : lastGroup offset place group = .ok (values, pads)) :
    group = values.map code ++ List.replicate pads pad ∧ ∀ value ∈ values, value < 64 := by
  induction group generalizing place values pads with
  | nil =>
    cases h
    exact ⟨rfl, fun _ hmem => absurd hmem List.not_mem_nil⟩
  | cons byte rest ih =>
    rw [lastGroup] at h
    split at h
    · rename_i hpad
      split at h
      · cases h
      · split at h
        · rename_i hall
          cases h
          refine ⟨?_, fun _ hmem => absurd hmem List.not_mem_nil⟩
          rw [hpad, List.map_nil, List.nil_append, List.replicate_succ]
          congr 1
          exact List.eq_replicate_iff.2 ⟨rfl, fun b hb => of_decide_eq_true (List.all_eq_true.1 hall b hb)⟩
        · cases h
    · obtain ⟨value, hvalue, h⟩ := bind_eq_ok.1 h
      obtain ⟨⟨others, more⟩, hrest, h⟩ := bind_eq_ok.1 h
      cases h
      obtain ⟨hlt, rfl⟩ := code_of_valueAt hvalue
      obtain ⟨rfl, hothers⟩ := ih hrest
      exact ⟨rfl, List.forall_mem_cons.2 ⟨hlt, hothers⟩⟩

/-- The last group holds the symbols of the bytes that it is read as, and no others: its unused bits are zero. -/
theorem coded_of_decodeLast {offset : Nat} {group data : List UInt8} (h : decodeLast offset group = .ok data) :
    group = coded data := by
  obtain ⟨⟨values, pads⟩, hgroup, h⟩ := bind_eq_ok.1 h
  obtain ⟨rfl, hvalues⟩ := eq_of_lastGroup hgroup
  dsimp only at h
  rw [checked_eq_ok, checked_eq_ok] at h
  obtain ⟨-, hcount, h⟩ := h
  have hpads : values.length + pads = 4 := Decidable.not_not.1 hcount
  -- Without unused bits the byte that is cut off is as good as zero.
  match values with
  | [] => cases h
  | [_] => cases h
  | [a, b] =>
    obtain ⟨hunused, h⟩ := checked_eq_ok.1 h
    cases h
    obtain rfl : pads = 2 := Nat.add_left_cancel hpads
    have ha := hvalues a (by simp)
    have hb := hvalues b (by simp)
    obtain ⟨x, y, z, hbytes, rfl, rfl, -, -⟩ := values_bytes ha hb (show 0 < 64 by omega) (show 0 < 64 by omega)
    have hy := y.toNat_lt
    have hsecond : second x 0 = second x y := by
      simp only [second, UInt8.toNat_zero] at hunused ⊢
      omega
    rw [hbytes, List.take_succ_cons, List.take_zero, coded, hsecond]
    rfl
  | [a, b, c] =>
    obtain ⟨hunused, h⟩ := checked_eq_ok.1 h
    cases h
    obtain rfl : pads = 1 := Nat.add_left_cancel hpads
    have ha := hvalues a (by simp)
    have hb := hvalues b (by simp)
    have hc := hvalues c (by simp)
    obtain ⟨x, y, z, hbytes, rfl, rfl, rfl, -⟩ := values_bytes ha hb hc (show 0 < 64 by omega)
    have hz := z.toNat_lt
    have hthird : third y 0 = third y z := by
      simp only [third, UInt8.toNat_zero] at hunused ⊢
      omega
    rw [hbytes, List.take_succ_cons, List.take_succ_cons, List.take_zero, coded, hthird]
    rfl
  | [a, b, c, d] =>
    cases h
    obtain rfl : pads = 0 := Nat.add_left_cancel hpads
    have ha := hvalues a (by simp)
    have hb := hvalues b (by simp)
    have hc := hvalues c (by simp)
    have hd := hvalues d (by simp)
    obtain ⟨x, y, z, hbytes, rfl, rfl, rfl, rfl⟩ := values_bytes ha hb hc hd
    rw [hbytes]
    rfl
  | _ :: _ :: _ :: _ :: _ :: _ => cases h

theorem coded_of_decodeGroups {offset : Nat} {text data : List UInt8} (h : decodeGroups offset text = .ok data) :
    text = coded data := by
  fun_induction decodeGroups offset text generalizing data with
  | case1 offset a b c d next rest ih =>
    obtain ⟨w, hw, h⟩ := bind_eq_ok.1 h
    obtain ⟨x, hx, h⟩ := bind_eq_ok.1 h
    obtain ⟨y, hy, h⟩ := bind_eq_ok.1 h
    obtain ⟨z, hz, h⟩ := bind_eq_ok.1 h
    obtain ⟨decoded, hdecoded, h⟩ := bind_eq_ok.1 h
    cases h
    obtain ⟨hwlt, rfl⟩ := code_of_valueAt hw
    obtain ⟨hxlt, rfl⟩ := code_of_valueAt hx
    obtain ⟨hylt, rfl⟩ := code_of_valueAt hy
    obtain ⟨hzlt, rfl⟩ := code_of_valueAt hz
    obtain ⟨l, m, n, hbytes, rfl, rfl, rfl, rfl⟩ := values_bytes hwlt hxlt hylt hzlt
    rw [ih hdecoded, hbytes]
    rfl
  | case2 offset =>
    cases h
    rfl
  | case3 offset group hshort hne => exact coded_of_decodeLast h

/-- Text is read if and only if it is the base64 of some bytes, padding and unused bits included. -/
theorem decode_eq_ok_iff {text : String} {data : List UInt8} :
    decode (Utf8.encode text) = .ok data ↔ text = String.ofList (encode data) := by
  constructor
  · intro h
    rw [decode] at h
    split at h
    · cases h
    · refine Utf8.encode_inj ?_
      rw [utf8_encode]
      exact coded_of_decodeGroups h
  · rintro rfl
    exact decode_encode data

end KeyedRecords.Base64
