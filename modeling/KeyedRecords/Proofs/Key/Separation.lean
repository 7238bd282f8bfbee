import KeyedRecords.Proofs.Key.Grammar

/-! A key that is made of several fields names one record only if the texts of the fields cannot run into each other.
Literal text between the fields keeps them apart, as long as no field holds the character that this text begins with.
Main statement: `Template.render_eq_iff`. -/

namespace KeyedRecords.Template

/-- Whether not both of two segments are fields. -/
def Segment.FieldsApart : Segment → Segment → Prop
  | .field _, .field _ => False
  | _, _ => True

/-- Whether some literal text that is not empty stands between any two consecutive fields. -/
def Separated (template : Template) : Prop :=
  ∀ before first between second after,
    template.segments = before ++ .field first :: (between ++ .field second :: after) → fieldNames between = [] →
      ∃ text, .literal text ∈ between ∧ text ≠ ""

/-- Whether a character begins literal text that follows a field. -/
def EndsAt (template : Template) (name : String) (c : Char) : Prop :=
  ∃ before literal after,
    template.segments = before ++ .field name :: .literal literal :: after ∧ literal.toList.head? = some c

/-- Whether no field holds a character that begins the literal text after it. -/
def Confines (template : Template) (args : Arguments) : Prop :=
  ∀ name c, template.EndsAt name c → ∀ text, args.segment? name = .ok (some text) → c ∉ text.toList

/-- The texts that a field may hold: those without the characters it ends at. -/
def confined (template : Template) : Vocabulary := fun name text => ∀ c, template.EndsAt name c → c ∉ text.toList

variable {template : Template}

/-- Neighbours that are not both fields have literal text between any two fields. -/
theorem separated_of_isChain (hchain : template.segments.IsChain Segment.FieldsApart)
    (hliterals : .literal "" ∉ template.segments) : template.Separated := by
  intro before first between second after hsegments _
  rw [hsegments] at hchain hliterals
  have hnext := (List.isChain_append.1 hchain).2.1
  cases between with
  | nil => exact hnext.rel.elim
  | cons next between =>
    cases next with
    | field name => exact hnext.rel.elim
    | literal text =>
      refine ⟨text, List.mem_cons_self, ?_⟩
      rintro rfl
      exact hliterals (by simp)

theorem EndsAt.mem {name : String} {c : Char} (h : template.EndsAt name c) :
    name ∈ template.fields ∧ ∃ literal, .literal literal ∈ template.segments ∧ literal.toList.head? = some c := by
  obtain ⟨before, literal, after, hsegments, hhead⟩ := h
  refine ⟨?_, literal, by simp [hsegments], hhead⟩
  rw [fields, hsegments, List.filterMap_append]
  exact List.mem_append_right _ List.mem_cons_self

theorem Confines.admits {args : Arguments} (h : template.Confines args) (names : List String) :
    template.confined.Admits names args :=
  fun name _ text htext c hends => h name c hends text htext

theorem literal_ne_empty {text literal : String} (hparse : parse text = .ok template)
    (hliteral : .literal literal ∈ template.segments) : literal ≠ "" := by
  rw [parse] at hparse
  split at hparse
  · rename_i segments hscan
    cases hparse
    obtain ⟨pieces, -, rfl⟩ := (scan_eq_ok_iff _).1 hscan
    exact literal_mem_segmentsOf hliteral
  · cases hparse

/-- What follows a field is literal text, and that ends it; another field cannot follow at once. -/
theorem readable_of_separated (hliterals : ∀ literal, .literal literal ∈ template.segments → literal ≠ "")
    (hseparated : template.Separated) (rest : List Segment) :
    ∀ before, template.segments = before ++ rest → Readable template.confined rest := by
  induction rest with
  | nil => exact fun _ _ => trivial
  | cons segment rest ih =>
    intro before hsegments
    have hrest : Readable template.confined rest := ih (before ++ [segment]) (by simp [hsegments])
    cases segment with
    | literal text => exact hrest
    | field name =>
      refine ⟨fun hmore => ?_, hrest⟩
      cases rest with
      | nil => exact absurd rfl hmore
      | cons next after =>
        cases next with
        | field second =>
          obtain ⟨text, hbetween, -⟩ := hseparated before name [] second after hsegments rfl
          cases hbetween
        | literal text =>
          have hne : text ≠ "" := hliterals text (by simp [hsegments])
          obtain ⟨c, chars, htext⟩ : ∃ c chars, text.toList = c :: chars :=
            List.exists_cons_of_ne_nil (by simpa using hne)
          have hends : template.EndsAt name c := ⟨before, text, after, hsegments, by rw [htext]; rfl⟩
          rw [leadingText, htext]
          exact delimited_of_not_mem fun value hvalue => hvalue c hends

/-- If the fields are separated, and none holds the character that begins the literal text after it, two keys are the
same exactly if every field has the same text in both. -/
theorem render_eq_iff {text model key otherKey : String} {args other : Arguments} (hparse : parse text = .ok template)
    (hseparated : template.Separated) (hargs : template.Confines args) (hother : template.Confines other)
    (hkey : template.render args model = .ok key) (hotherKey : template.render other model = .ok otherKey) :
    key = otherKey ↔ ∀ name ∈ template.fields, args.segment? name = other.segment? name := by
  have hreadable : Readable template.confined template.segments :=
    readable_of_separated (fun _ => literal_ne_empty hparse) hseparated template.segments [] rfl
  constructor
  · rintro rfl
    exact renderSegments_injective hreadable (hargs.admits _) (hother.admits _) hkey hotherKey
  · intro hsame
    have hequal : template.render args model = template.render other model := renderSegments_congr hsame
    exact Except.ok.inj (hkey.symm.trans (hequal.trans hotherKey))

def termTemplate : Template where
  text := "\x7bterm\x7d#\x7bcode\x7d/\x7bterm\x7d"
  segments := [.field "term", .literal "#", .field "code", .literal "/", .field "term"]

theorem render_eq_iff_term :
    parse termTemplate.text = .ok termTemplate ∧
    ∃ key other, termTemplate.render [("code", .string "A"), ("term", .string "")] "Course" = .ok key ∧
      termTemplate.render [("code", .string ""), ("term", .string "A")] "Course" = .ok other ∧ key ≠ other := by
  have hparse : parse termTemplate.text = .ok termTemplate := by decide
  have hseparated : termTemplate.Separated :=
    separated_of_isChain (by simp [termTemplate, Segment.FieldsApart]) (by simp [termTemplate])
  have hconfines : ∀ code term : String, (∀ c ∈ ['#', '/'], c ∉ code.toList ∧ c ∉ term.toList) →
      termTemplate.Confines [("code", .string code), ("term", .string term)] := by
    intro code term hfree name c hends text htext
    obtain ⟨hname, literal, hliteral, hhead⟩ := hends.mem
    have hc : c ∈ ['#', '/'] := by
      simp only [termTemplate, List.mem_cons, Segment.literal.injEq, reduceCtorEq, false_or, or_false,
        List.not_mem_nil] at hliteral
      rcases hliteral with rfl | rfl <;> cases hhead <;> decide
    have hnames : name = "term" ∨ name = "code" ∨ name = "term" := by simpa [termTemplate, fields] using hname
    rcases hnames with rfl | rfl | rfl <;> cases htext
    · exact (hfree c hc).2
    · exact (hfree c hc).1
    · exact (hfree c hc).2
  have hkey : termTemplate.render [("code", .string "A"), ("term", .string "")] "Course" = .ok "#A/" := by decide
  have hother : termTemplate.render [("code", .string ""), ("term", .string "A")] "Course" = .ok "A#/A" := by decide
  refine ⟨hparse, "#A/", "A#/A", hkey, hother, fun hequal => ?_⟩
  have hsame := (render_eq_iff hparse hseparated (hconfines _ _ (by simp)) (hconfines _ _ (by simp))
    hkey hother).1 hequal
  exact absurd (hsame "code" (by decide)) (by decide)

/-- A field that holds the text after it runs into the next field. -/
example : render ⟨"\x7bterm\x7d#\x7bcode\x7d", [.field "term", .literal "#", .field "code"]⟩
      [("code", .string "C"), ("term", .string "A#B")] "Course" = .ok "A#B#C" ∧
    render ⟨"\x7bterm\x7d#\x7bcode\x7d", [.field "term", .literal "#", .field "code"]⟩
      [("code", .string "B#C"), ("term", .string "A")] "Course" = .ok "A#B#C" := by decide

end KeyedRecords.Template
