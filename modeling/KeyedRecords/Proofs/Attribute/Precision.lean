import KeyedRecords.Proofs.Attribute.Lossless
import KeyedRecords.Proofs.Attribute.Readable
import KeyedRecords.Proofs.Number.Shortest

/-! What reading a stored number keeps. A stored text may write any decimal. Read as JSON and stored again, an integer
that fits a word stays the same, and every other decimal becomes the shortest one of its nearest float: the value is
kept if it was that one already. So decimals of up to fifteen digits are kept unless they are too small, and of more
than seventeen only those integers. Main statement: `texts_kept_iff`. -/

namespace KeyedRecords

/-! ## The value of a text -/

def signOf (negative : Bool) : ℚ := if negative then -1 else 1

/-- The exact value of a decimal. -/
def DecimalText.value (d : DecimalText) : ℚ :=
  signOf d.negative * (Digits.value (d.whole ++ d.fraction) * 10 ^ (d.exponent - (d.fraction.length : ℤ)))

def decimal? (text : String) : Option ℚ := (DecimalText.parse? text.toList).map DecimalText.value

theorem abs_signOf (negative : Bool) : |signOf negative| = 1 := by cases negative <;> simp [signOf]

theorem abs_signOf_mul {q : ℚ} (hq : 0 ≤ q) (negative : Bool) : |signOf negative * q| = q := by
  rw [abs_mul, abs_signOf, one_mul, abs_of_nonneg hq]

theorem signOf_ne_zero (negative : Bool) : signOf negative ≠ 0 := by cases negative <;> simp [signOf]

/-- An integer is written by its digits alone. -/
theorem Digits.parse?_of_int? {cs : List Char} {n : Int} (h : int? cs = some n) :
    ∃ d, DecimalText.parse? cs = some d ∧ d.value = n := by
  rcases hsign : sign cs with ⟨negative, digits⟩
  simp only [int?, hsign, Option.map_eq_some_iff] at h
  obtain ⟨m, hm, rfl⟩ := h
  obtain ⟨k, hk, hm⟩ := Option.bind_eq_some_iff.1 hm
  cases hm
  obtain ⟨hne, hdigits, rfl⟩ := nat?_eq_some_iff.1 hk
  have hspan : span digits = (digits, []) := by
    have happend : span (digits ++ []) = (digits, []) := span_append hdigits (by simp)
    rwa [List.append_nil] at happend
  refine ⟨⟨negative, digits, [], 0⟩, ?_, ?_⟩
  · simp [DecimalText.parse?, hsign, hspan, hne, DecimalText.exponent?]
  · cases negative <;> simp [DecimalText.value, signOf]

namespace Number

theorem int?_of_ofText? {text : String} {n : Int} {inRange : WordRange n}
    (h : ofText? text = some (integer n inRange)) : Digits.int? text.toList = some n := by
  rw [ofText?, Option.or_eq_some_iff] at h
  rcases h with h | ⟨-, h⟩
  · obtain ⟨m, hm, hfits⟩ := Option.bind_eq_some_iff.1 h
    rw [ofInt?] at hfits
    split at hfits
    · cases hfits
      exact hm
    · cases hfits
  · obtain ⟨x, -, hx⟩ := Option.map_eq_some_iff.1 h
    cases hx

theorem parse?_of_ofText? {text : String} {x : Binary64} (h : ofText? text = some (float x)) :
    ∃ d, DecimalText.parse? text.toList = some d ∧ d.toFloat? = some x := by
  rw [ofText?, Option.or_eq_some_iff] at h
  rcases h with h | ⟨-, h⟩
  · obtain ⟨m, -, hfits⟩ := Option.bind_eq_some_iff.1 h
    rw [ofInt?] at hfits
    split at hfits <;> cases hfits
  · obtain ⟨y, hy, hx⟩ := Option.map_eq_some_iff.1 h
    cases hx
    exact Option.bind_eq_some_iff.1 hy

/-- A text that is read as an integer writes that integer. -/
theorem decimal?_of_integer {text : String} {n : Int} {inRange : WordRange n}
    (h : ofText? text = some (integer n inRange)) : decimal? text = some (n : ℚ) := by
  obtain ⟨d, hd, hvalue⟩ := Digits.parse?_of_int? (int?_of_ofText? h)
  rw [decimal?, hd, Option.map_some, hvalue]

/-- A text that is read as a float writes a decimal of the float's sign, with a magnitude that is read as the float. -/
theorem decimal?_of_float {text : String} {x : Binary64} (h : ofText? text = some (float x)) :
    ∃ q, x.Takes q ∧ decimal? text = some (signOf x.negative * q) := by
  obtain ⟨d, hd, hread⟩ := parse?_of_ofText? h
  obtain ⟨hsign, htakes⟩ := Binary64.ofDecimal?_eq_some_iff.1 hread
  refine ⟨_, htakes, ?_⟩
  rw [decimal?, hd, Option.map_some, DecimalText.value, hsign]

/-- The text of a float writes its shortest decimal. -/
theorem decimal?_text_float (x : Binary64) :
    ∃ q, x.Shortest q ∧ decimal? (float x).text = some (signOf x.negative * q) := by
  obtain ⟨body, whole, fraction, exponent, hsign, hwritten, hvalue⟩ := x.text_isWritten
  refine ⟨_, x.shortest_shortestDecimal, ?_⟩
  rw [decimal?, text, hwritten.parse?_eq hsign, Option.map_some, DecimalText.value, hvalue]

end Number

/-! ## The texts that are kept -/

/-- Whether a text keeps its value when it is read: as an integer that fits a word, or as the float that it is the
shortest decimal of. -/
def Keeps (text : String) : Prop :=
  (∃ n inRange, Number.ofText? text = some (.integer n inRange)) ∨
    ∃ x q, Number.ofText? text = some (.float x) ∧ decimal? text = some q ∧ x.Shortest |q|

/-- A decimal of at most fifteen digits that is not too small keeps its value. -/
theorem keeps_of_fifteen {text : String} {n : Number} {q : ℚ} (h : Number.ofText? text = some n)
    (hq : decimal? text = some q) (hdigits : HasDigits 15 |q|) (hnormal : 2 ^ (-1022 : ℤ) ≤ |q|) : Keeps text := by
  cases n with
  | integer n inRange => exact Or.inl ⟨n, inRange, h⟩
  | float x =>
    obtain ⟨r, htakes, hr⟩ := Number.decimal?_of_float h
    rw [hq] at hr
    cases hr
    rw [abs_signOf_mul htakes.1] at hdigits hnormal
    refine Or.inr ⟨x, _, h, hq, ?_⟩
    rw [abs_signOf_mul htakes.1]
    exact Binary64.shortest_of_fifteen htakes hdigits hnormal

/-- What keeps its value is an integer that fits a word or has at most seventeen digits. -/
theorem Keeps.seventeen {text : String} {q : ℚ} (h : Keeps text) (hq : decimal? text = some q) :
    (∃ n : ℤ, WordRange n ∧ q = n) ∨ HasDigits 17 |q| := by
  rcases h with ⟨n, inRange, h⟩ | ⟨x, r, -, hr, hshortest⟩
  · rw [Number.decimal?_of_integer h] at hq
    cases hq
    exact Or.inl ⟨n, inRange, rfl⟩
  · rw [hr] at hq
    cases hq
    exact Or.inr hshortest.seventeen

/-- Written again, a number has the value of the text that it was read from just if the text keeps it. -/
theorem decimal?_text_eq_iff {text : String} {n : Number} (h : Number.ofText? text = some n) :
    ∃ before after, decimal? text = some before ∧ decimal? n.text = some after ∧ (after = before ↔ Keeps text) := by
  cases n with
  | integer n inRange =>
    refine ⟨n, n, Number.decimal?_of_integer h, Number.decimal?_of_integer (Number.ofText?_text _), ?_⟩
    exact iff_of_true rfl (Or.inl ⟨n, inRange, h⟩)
  | float x =>
    obtain ⟨q, htakes, hq⟩ := Number.decimal?_of_float h
    obtain ⟨r, hshortest, hr⟩ := Number.decimal?_text_float x
    refine ⟨_, _, hq, hr, ?_⟩
    rw [mul_right_inj' (signOf_ne_zero _)]
    constructor
    · rintro rfl
      exact Or.inr ⟨x, _, h, hq, by rwa [abs_signOf_mul htakes.1]⟩
    · rintro (⟨n, inRange, hinteger⟩ | ⟨y, s, hy, hs, hkeeps⟩)
      · rw [h] at hinteger
        cases hinteger
      · rw [h] at hy
        cases hy
        rw [hq] at hs
        cases hs
        rw [abs_signOf_mul htakes.1] at hkeeps
        exact hshortest.unique hkeeps

namespace Attribute

/-! ## Attributes of one shape -/

mutual

/-- Whether two attributes are alike but for their number texts, where those at the same places are related. -/
inductive SameShape (r : String → String → Prop) : Attribute → Attribute → Prop
  | string (text : String) : SameShape r (string text) (string text)
  | number {a b : String} : r a b → SameShape r (number a) (number b)
  | boolean (value : Bool) : SameShape r (boolean value) (boolean value)
  | null : SameShape r null null
  | list {xs ys : List Attribute} : SameShapes r xs ys → SameShape r (list xs) (list ys)
  | map {xs ys : Item} : SameEntries r xs ys → SameShape r (map xs) (map ys)

inductive SameShapes (r : String → String → Prop) : List Attribute → List Attribute → Prop
  | nil : SameShapes r [] []
  | cons {x y : Attribute} {xs ys : List Attribute} :
    SameShape r x y → SameShapes r xs ys → SameShapes r (x :: xs) (y :: ys)

inductive SameEntries (r : String → String → Prop) : Item → Item → Prop
  | nil : SameEntries r [] []
  | cons {name : String} {x y : Attribute} {xs ys : Item} :
    SameShape r x y → SameEntries r xs ys → SameEntries r ((name, x) :: xs) ((name, y) :: ys)

end

variable {r : String → String → Prop}

mutual

/-- Reading an attribute and storing what is read leaves everything but the number texts. -/
theorem sameShape_of_toJson (hr : ∀ text n, Number.ofText? text = some n → r text n.text) :
    (value : Attribute) → ∀ {json}, value.toJson = .ok json → SameShape r value (ofJson json)
  | null, json, h => by
    cases h
    exact .null
  | boolean value, json, h => by
    cases h
    exact .boolean value
  | string text, json, h => by
    cases h
    exact .string text
  | number text, json, h => by
    rw [toJson, readNumber] at h
    cases hread : Number.ofText? text with
    | none =>
      rw [hread] at h
      cases h
    | some n =>
      rw [hread] at h
      cases h
      exact .number (hr text n hread)
  | list elements, json, h => by
    obtain ⟨read, hread, hjson⟩ := bind_eq_ok.1 h
    cases hjson
    exact .list (sameShapes_of_toJsonList hr elements hread)
  | map entries, json, h => by
    obtain ⟨read, hread, rfl⟩ := toJson_map_eq_ok.1 h
    exact .map (sameEntries_of_toJsonMap hr entries hread)

theorem sameShapes_of_toJsonList (hr : ∀ text n, Number.ofText? text = some n → r text n.text) :
    (elements : List Attribute) → ∀ {read}, toJsonList elements = .ok read →
      SameShapes r elements (ofJsonList read)
  | [], read, h => by
    cases h
    exact .nil
  | value :: rest, read, h => by
    obtain ⟨head, hhead, h⟩ := bind_eq_ok.1 h
    obtain ⟨tail, htail, h⟩ := bind_eq_ok.1 h
    cases h
    exact .cons (sameShape_of_toJson hr value hhead) (sameShapes_of_toJsonList hr rest htail)

theorem sameEntries_of_toJsonMap (hr : ∀ text n, Number.ofText? text = some n → r text n.text) :
    (entries : Item) → ∀ {read}, toJsonMap entries = .ok read → SameEntries r entries (ofJsonMap read)
  | [], read, h => by
    cases h
    exact .nil
  | (name, value) :: rest, read, h => by
    obtain ⟨head, tail, hhead, htail, rfl⟩ := toJsonMap_cons_eq_ok.1 h
    exact .cons (sameShape_of_toJson hr value hhead) (sameEntries_of_toJsonMap hr rest htail)

end

/-- Read as JSON and stored again, an attribute is the same but for its number texts, and each of them writes a decimal
again, of the value of the text in its place just if that text keeps its value: as an integer that fits a word, or as
the shortest decimal of the float that it is read as. All decimals of at most fifteen digits that are not too small are
kept, and of those with more than seventeen only integers that fit a word. -/
theorem texts_kept_iff {value : Attribute} {json : Json} (h : value.toJson = .ok json) :
    SameShape (fun text again => ∃ before after, decimal? text = some before ∧ decimal? again = some after ∧
      (after = before ↔ Keeps text) ∧
      (HasDigits 15 |before| → 2 ^ (-1022 : ℤ) ≤ |before| → after = before) ∧
      (after = before → (∃ n : ℤ, WordRange n ∧ before = n) ∨ HasDigits 17 |before|)) value (ofJson json) := by
  refine sameShape_of_toJson (fun text n hread => ?_) value h
  obtain ⟨before, after, hbefore, hafter, hkeeps⟩ := decimal?_text_eq_iff hread
  exact ⟨before, after, hbefore, hafter, hkeeps,
    fun hdigits hnormal => hkeeps.2 (keeps_of_fifteen hread hbefore hdigits hnormal),
    fun hsame => (hkeeps.1 hsame).seventeen hbefore⟩

/-- The least positive integer that no word holds comes back as another one. -/
theorem texts_kept_iff_large : ∃ json, (number "18446744073709551616").toJson = .ok json ∧
    ofJson json = number "1.8446744073709552e+19" ∧ ¬ Keeps "18446744073709551616" := by
  have hlarge : Number.ofText? "18446744073709551616" = some (.float ⟨false, 4503599627370496, 12, by decide⟩) := by
    decide +kernel
  have htext : (Number.float ⟨false, 4503599627370496, 12, by decide⟩).text = "1.8446744073709552e+19" := by
    decide +kernel
  have hread : (number "18446744073709551616").toJson =
      .ok (.number (.float ⟨false, 4503599627370496, 12, by decide⟩)) := by
    simp only [toJson, readNumber, hlarge]
    rfl
  have hagain : ofJson (.number (.float ⟨false, 4503599627370496, 12, by decide⟩)) =
      number "1.8446744073709552e+19" := by rw [ofJson, htext]
  refine ⟨_, hread, hagain, fun hkeeps => ?_⟩
  have hshape := texts_kept_iff hread
  rw [hagain] at hshape
  cases hshape with
  | number hkept =>
    obtain ⟨before, after, hbefore, hafter, hiff, -⟩ := hkept
    have hdiffer : decimal? "18446744073709551616" ≠ decimal? "1.8446744073709552e+19" := by decide +kernel
    rw [hbefore, hafter, hiff.2 hkeeps] at hdiffer
    exact hdiffer rfl

end Attribute

end KeyedRecords
