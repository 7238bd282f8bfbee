import KeyedRecords.Proofs.Key.Template
import Mathlib.Data.List.Chain

/-! The grammar of key templates. A text writes a template if it consists of characters that are no braces and of names
between braces; it is read as these names with the literal text between them, and rendering puts the text of each value
in the place of its group. Main statements: `scan_eq_ok_iff`, `renderSegments_segmentsOf`, `renderSegments_missing`,
`parse_reads`. -/

namespace KeyedRecords

/-- A piece of the text of a template: a character that stands for itself, or what stands between two braces. -/
inductive Piece where
  | plain (c : Char)
  | group (inside : List Char)

namespace Piece

def WellFormed : Piece → Prop
  | plain c => c ≠ '{' ∧ c ≠ '}'
  | group inside => (∀ c ∈ inside, c ≠ '{' ∧ c ≠ '}') ∧ Text.trim inside ≠ []

def chars : Piece → List Char
  | plain c => [c]
  | group inside => '{' :: (inside ++ ['}'])

def name? : Piece → Option String
  | plain _ => none
  | group inside => some (String.ofList (Text.trim inside))

/-- The text of a piece with the word for its name in the place of a group. -/
def filled (words : String → String) : Piece → List Char
  | plain c => [c]
  | group inside => (words (String.ofList (Text.trim inside))).toList

end Piece

/-- Whether some pieces write a text. -/
def Writes (pieces : List Piece) (text : List Char) : Prop :=
  (∀ piece ∈ pieces, piece.WellFormed) ∧ text = pieces.flatMap Piece.chars

def Json.Scalar : Json → Prop
  | .string _ | .number _ | .boolean _ => True
  | .null | .list _ | .map _ => False

theorem Json.Scalar.segment? {value : Json} (h : value.Scalar) : ∃ text, value.segment? = .ok (some text) := by
  cases value <;> first | exact h.elim | exact ⟨_, rfl⟩

namespace Arguments

/-- Whether a name has a scalar other than null. -/
def HasScalar (args : Arguments) (name : String) : Prop := ∃ value, Assoc.find? args name = some value ∧ value.Scalar

/-- The text of a name in a key; none if it has no scalar. -/
def word (args : Arguments) (name : String) : String :=
  match args.segment? name with
  | .ok (some text) => text
  | _ => ""

theorem HasScalar.segment? {args : Arguments} {name : String} (h : args.HasScalar name) :
    args.segment? name = .ok (some (args.word name)) := by
  obtain ⟨value, hvalue, hscalar⟩ := h
  obtain ⟨text, htext⟩ := hscalar.segment?
  have hsegment : args.segment? name = .ok (some text) := by
    simp only [Arguments.segment?, hvalue, htext]
  rw [word, hsegment]

end Arguments

namespace Template

/-! ## Reading -/

/-- The segments that some pieces are read as, after a run of literal text. -/
def segmentsOf (run : List Char) : List Piece → List Segment
  | [] => Segment.ofLiteral run
  | .plain c :: rest => segmentsOf (run ++ [c]) rest
  | .group inside :: rest =>
    Segment.ofLiteral run ++ .field (String.ofList (Text.trim inside)) :: segmentsOf [] rest

section Field

variable {run name text : List Char} {segments : List Segment}

theorem scanField_open : scanField run name ('{' :: text) = .error .nestedBrace := by
  rw [scanField, if_pos rfl]

theorem scanField_other {c : Char} (hopen : c ≠ '{') (hclose : c ≠ '}') :
    scanField run name (c :: text) = scanField run (name ++ [c]) text := by
  rw [scanField, if_neg hopen, if_neg hclose]

theorem scanField_close_eq_ok_iff : scanField run name ('}' :: text) = .ok segments ↔
    Text.trim name ≠ [] ∧ ∃ more, scan [] text = .ok more ∧
      segments = Segment.ofLiteral run ++ .field (String.ofList (Text.trim name)) :: more := by
  rw [scanField, if_neg (by decide), if_pos rfl]
  by_cases hname : Text.trim name = []
  · simp [hname]
  · simp only [List.isEmpty_iff, hname, if_false, ne_eq, not_false_eq_true, true_and]
    rw [bind_eq_ok]
    exact exists_congr fun more => and_congr_right fun _ => ⟨fun h => (Except.ok.inj h).symm, fun h => h ▸ rfl⟩

/-- What stands before the first closing brace begins with the first character, unless this is the brace. -/
theorem exists_inside_cons_iff {c : Char} {P : List Char → List Char → Prop} :
    (∃ inside rest, c :: text = inside ++ '}' :: rest ∧ (∀ d ∈ inside, d ≠ '{' ∧ d ≠ '}') ∧ P inside rest) ↔
      (c = '}' ∧ P [] text) ∨ ((c ≠ '{' ∧ c ≠ '}') ∧ ∃ inside rest, text = inside ++ '}' :: rest ∧
        (∀ d ∈ inside, d ≠ '{' ∧ d ≠ '}') ∧ P (c :: inside) rest) := by
  constructor
  · rintro ⟨inside, rest, htext, hinside, h⟩
    cases inside with
    | nil =>
      cases htext
      exact Or.inl ⟨rfl, h⟩
    | cons d inside =>
      cases htext
      obtain ⟨hfirst, hinside⟩ := List.forall_mem_cons.1 hinside
      exact Or.inr ⟨hfirst, inside, rest, rfl, hinside, h⟩
  · rintro (⟨rfl, h⟩ | ⟨hfirst, inside, rest, rfl, hinside, h⟩)
    · exact ⟨[], text, rfl, nofun, h⟩
    · exact ⟨c :: inside, rest, rfl, List.forall_mem_cons.2 ⟨hfirst, hinside⟩, h⟩

/-- A group is read up to the first brace, which has to close it. -/
theorem scanField_eq_ok_iff : scanField run name text = .ok segments ↔ ∃ inside rest,
    text = inside ++ '}' :: rest ∧ (∀ c ∈ inside, c ≠ '{' ∧ c ≠ '}') ∧ Text.trim (name ++ inside) ≠ [] ∧
      ∃ more, scan [] rest = .ok more ∧
        segments = Segment.ofLiteral run ++ .field (String.ofList (Text.trim (name ++ inside))) :: more := by
  induction text generalizing name with
  | nil => simp [scanField]
  | cons c text ih =>
    rw [exists_inside_cons_iff]
    by_cases hopen : c = '{'
    · rw [hopen, scanField_open]
      simp
    by_cases hclose : c = '}'
    · rw [hclose, scanField_close_eq_ok_iff]
      simp
    · rw [scanField_other hopen hclose, ih]
      simp [hopen, hclose]

end Field

theorem writes_cons_iff {piece : Piece} {pieces : List Piece} {text : List Char} :
    Writes (piece :: pieces) text ↔ piece.WellFormed ∧ ∃ rest, text = piece.chars ++ rest ∧ Writes pieces rest := by
  simp only [Writes, List.forall_mem_cons, List.flatMap_cons]
  constructor
  · rintro ⟨⟨hpiece, hpieces⟩, rfl⟩
    exact ⟨hpiece, _, rfl, hpieces, rfl⟩
  · rintro ⟨hpiece, rest, rfl, hpieces, rfl⟩
    exact ⟨⟨hpiece, hpieces⟩, rfl⟩

theorem writes_empty_iff {pieces : List Piece} : Writes pieces [] ↔ pieces = [] := by
  cases pieces with
  | nil => simp [Writes]
  | cons piece pieces => cases piece <;> simp [writes_cons_iff, Piece.chars]

/-- What pieces can write a text, by its first character. -/
theorem writes_text_iff {c : Char} {pieces : List Piece} {text : List Char} :
    Writes pieces (c :: text) ↔
      (c ≠ '{' ∧ c ≠ '}' ∧ ∃ more, pieces = .plain c :: more ∧ Writes more text) ∨
      (c = '{' ∧ ∃ inside rest more, text = inside ++ '}' :: rest ∧
        (∀ d ∈ inside, d ≠ '{' ∧ d ≠ '}') ∧ Text.trim inside ≠ [] ∧
        pieces = .group inside :: more ∧ Writes more rest) := by
  constructor
  · intro h
    cases pieces with
    | nil => cases h.2
    | cons piece pieces =>
      obtain ⟨hpiece, rest, htext, hrest⟩ := writes_cons_iff.1 h
      cases piece with
      | plain d =>
        cases htext
        exact Or.inl ⟨hpiece.1, hpiece.2, pieces, rfl, hrest⟩
      | group inside =>
        rw [Piece.chars, List.cons_append, List.append_assoc] at htext
        cases htext
        exact Or.inr ⟨rfl, inside, rest, pieces, rfl, hpiece.1, hpiece.2, rfl, hrest⟩
  · rintro (⟨hopen, hclose, more, rfl, hmore⟩ | ⟨rfl, inside, rest, more, rfl, hinside, hname, rfl, hmore⟩)
    · exact writes_cons_iff.2 ⟨⟨hopen, hclose⟩, text, rfl, hmore⟩
    · exact writes_cons_iff.2 ⟨⟨hinside, hname⟩, rest, by simp [Piece.chars], hmore⟩

/-- A text is read if and only if some pieces write it, and then as these pieces say. -/
theorem scan_eq_ok_iff : (text : List Char) → ∀ {run : List Char} {segments : List Segment},
    scan run text = .ok segments ↔ ∃ pieces, Writes pieces text ∧ segments = segmentsOf run pieces
  | [], run, segments => by
    simp only [scan, Except.ok.injEq, writes_empty_iff, exists_eq_left]
    exact eq_comm
  | c :: text, run, segments => by
    simp only [scan, writes_text_iff]
    by_cases hopen : c = '{'
    · rw [if_pos hopen, scanField_eq_ok_iff]
      constructor
      · rintro ⟨inside, rest, rfl, hinside, hname, more, hmore, rfl⟩
        obtain ⟨pieces, hpieces, rfl⟩ := (scan_eq_ok_iff rest).1 hmore
        exact ⟨_, Or.inr ⟨hopen, inside, rest, pieces, rfl, hinside, hname, rfl, hpieces⟩, rfl⟩
      · rintro ⟨pieces, ⟨hplain, -⟩ | ⟨-, inside, rest, more, rfl, hinside, hname, rfl, hmore⟩, rfl⟩
        · exact absurd hopen hplain
        · exact ⟨inside, rest, rfl, hinside, hname, _, (scan_eq_ok_iff rest).2 ⟨more, hmore, rfl⟩, rfl⟩
    rw [if_neg hopen]
    by_cases hclose : c = '}'
    · rw [if_pos hclose]
      refine ⟨nofun, ?_⟩
      rintro ⟨pieces, ⟨-, hplain, -⟩ | ⟨hgroup, -⟩, -⟩
      · exact absurd hclose hplain
      · exact absurd hgroup hopen
    · rw [if_neg hclose, scan_eq_ok_iff text]
      constructor
      · rintro ⟨pieces, hpieces, rfl⟩
        exact ⟨_, Or.inl ⟨hopen, hclose, pieces, rfl, hpieces⟩, rfl⟩
      · rintro ⟨pieces, ⟨-, -, more, rfl, hmore⟩ | ⟨hgroup, -⟩, rfl⟩
        · exact ⟨more, hmore, rfl⟩
        · exact absurd hgroup hopen
termination_by text => text.length

/-! ## What was read -/

theorem fieldNames_ofLiteral (run : List Char) (segments : List Segment) :
    fieldNames (Segment.ofLiteral run ++ segments) = fieldNames segments := by
  unfold Segment.ofLiteral
  split <;> rfl

/-- The names are those in the groups, in order. -/
theorem fieldNames_segmentsOf (run : List Char) (pieces : List Piece) :
    fieldNames (segmentsOf run pieces) = pieces.filterMap Piece.name? := by
  induction pieces generalizing run with
  | nil =>
    have hrun := fieldNames_ofLiteral run []
    rw [List.append_nil] at hrun
    exact hrun
  | cons piece pieces ih =>
    cases piece with
    | plain c => exact ih _
    | group inside =>
      rw [segmentsOf, fieldNames_ofLiteral]
      exact congrArg (String.ofList (Text.trim inside) :: ·) (ih [])

theorem literal_mem_ofLiteral {text : String} {run : List Char} (h : Segment.literal text ∈ Segment.ofLiteral run) :
    text ≠ "" := by
  unfold Segment.ofLiteral at h
  split at h
  · cases h
  · rename_i hrun
    cases List.mem_singleton.1 h
    intro he
    have hempty : run = [] := by simpa using he
    exact hrun (by simp [hempty])

/-- No literal is empty. -/
theorem literal_mem_segmentsOf {text : String} {run : List Char} {pieces : List Piece}
    (h : Segment.literal text ∈ segmentsOf run pieces) : text ≠ "" := by
  induction pieces generalizing run with
  | nil => exact literal_mem_ofLiteral h
  | cons piece pieces ih =>
    cases piece with
    | plain c => exact ih h
    | group inside =>
      rw [segmentsOf, List.mem_append, List.mem_cons] at h
      rcases h with h | h | h
      · exact literal_mem_ofLiteral h
      · cases h
      · exact ih h

/-- Whether not both of two segments are literals. -/
def Segment.Alternate : Segment → Segment → Prop
  | .literal _, .literal _ => False
  | _, _ => True

/-- No two literals stand side by side. -/
theorem segmentsOf_alternate (run : List Char) (pieces : List Piece) :
    (segmentsOf run pieces).IsChain Segment.Alternate := by
  induction pieces generalizing run with
  | nil =>
    rw [segmentsOf, Segment.ofLiteral]
    split
    · exact List.isChain_nil
    · exact List.isChain_singleton _
  | cons piece pieces ih =>
    cases piece with
    | plain c => exact ih _
    | group inside =>
      have hfield : (.field (String.ofList (Text.trim inside)) :: segmentsOf [] pieces).IsChain Segment.Alternate :=
        List.isChain_cons.2 ⟨fun _ _ => trivial, ih []⟩
      rw [segmentsOf, Segment.ofLiteral]
      split
      · exact hfield
      · exact List.isChain_cons.2 ⟨fun segment hsegment => by cases hsegment; trivial, hfield⟩

/-! ## Rendering -/

section Rendering

variable {args : Arguments} {model : String}

theorem renderSegments_ofLiteral {segments : List Segment} {text : String} (run : List Char)
    (h : renderSegments args model segments = .ok text) :
    renderSegments args model (Segment.ofLiteral run ++ segments) = .ok (String.ofList run ++ text) := by
  unfold Segment.ofLiteral
  split
  · rename_i hrun
    rw [List.isEmpty_iff.1 hrun, List.nil_append, h]
    simp
  · rw [List.singleton_append, renderSegments, h]
    rfl

/-- Rendering puts the word for each name in the place of its group. -/
theorem renderSegments_segmentsOf {pieces : List Piece} (run : List Char)
    (h : ∀ name ∈ pieces.filterMap Piece.name?, args.HasScalar name) :
    renderSegments args model (segmentsOf run pieces) =
      .ok (String.ofList (run ++ pieces.flatMap (Piece.filled args.word))) := by
  induction pieces generalizing run with
  | nil =>
    have hrun : renderSegments args model (Segment.ofLiteral run ++ []) = .ok (String.ofList run ++ "") :=
      renderSegments_ofLiteral run rfl
    simpa [segmentsOf] using hrun
  | cons piece pieces ih =>
    cases piece with
    | plain c =>
      rw [segmentsOf, ih (run ++ [c]) h]
      simp [Piece.filled]
    | group inside =>
      have hname := h (String.ofList (Text.trim inside)) List.mem_cons_self
      have hrest := ih [] fun name hmem => h name (List.mem_cons_of_mem _ hmem)
      have hfield : renderSegments args model
          (.field (String.ofList (Text.trim inside)) :: segmentsOf [] pieces) =
          .ok (args.word (String.ofList (Text.trim inside)) ++
            String.ofList (pieces.flatMap (Piece.filled args.word))) := by
        rw [renderSegments, hname.segment?, hrest]
        rfl
      rw [segmentsOf, renderSegments_ofLiteral run hfield]
      simp [Piece.filled]

/-- Rendering fails for the first name that has nothing. -/
theorem renderSegments_missing {segments : List Segment} {before after : List String} {name : String}
    (hnames : fieldNames segments = before ++ name :: after) (hbefore : ∀ other ∈ before, args.HasScalar other)
    (hname : args.has name = false) :
    renderSegments args model segments = .error (.missingKeyField model name) := by
  induction segments generalizing before with
  | nil => cases before <;> cases hnames
  | cons segment rest ih =>
    cases segment with
    | literal text =>
      rw [renderSegments, ih hnames hbefore]
      rfl
    | field own =>
      have hnames : own :: fieldNames rest = before ++ name :: after := hnames
      cases before with
      | nil =>
        cases hnames
        rw [renderSegments, Arguments.segment?_eq_none_iff.2 hname]
        rfl
      | cons first before =>
        obtain ⟨rfl, hrest⟩ := List.cons.inj hnames
        have hrest := ih hrest fun other hother => hbefore other (List.mem_cons_of_mem _ hother)
        rw [renderSegments, (hbefore own List.mem_cons_self).segment?, hrest]
        rfl

end Rendering

/-- A text is read as a template if and only if pieces write it. The template then has the names of the groups in order,
literals that are not empty and stand apart, and is rendered by putting words in the place of the groups; where a name
has nothing, rendering fails for the first such name. -/
theorem parse_reads (text : String) :
    ((∃ template, parse text = .ok template) ↔ ∃ pieces, Writes pieces text.toList) ∧
    ∀ pieces template, Writes pieces text.toList → parse text = .ok template →
      template.fields = pieces.filterMap Piece.name? ∧
      Segment.literal "" ∉ template.segments ∧ template.segments.IsChain Segment.Alternate ∧
      ∀ (args : Arguments) (model : String),
        ((∀ name ∈ template.fields, args.HasScalar name) →
          template.render args model = .ok (String.ofList (pieces.flatMap (Piece.filled args.word)))) ∧
        ∀ before name after, template.fields = before ++ name :: after →
          (∀ other ∈ before, args.HasScalar other) → args.has name = false →
            template.render args model = .error (.missingKeyField model name) := by
  have hparse : ∀ template, parse text = .ok template ↔ ∃ segments,
      scan [] text.toList = .ok segments ∧ template = ⟨text, segments⟩ := by
    intro template
    simp only [parse]
    cases scan [] text.toList <;> simp [eq_comm]
  refine ⟨?_, fun pieces template hwrites htemplate => ?_⟩
  · constructor
    · rintro ⟨template, htemplate⟩
      obtain ⟨segments, hscan, -⟩ := (hparse template).1 htemplate
      obtain ⟨pieces, hwrites, -⟩ := (scan_eq_ok_iff _).1 hscan
      exact ⟨pieces, hwrites⟩
    · rintro ⟨pieces, hwrites⟩
      exact ⟨_, (hparse _).2 ⟨_, (scan_eq_ok_iff _).2 ⟨pieces, hwrites, rfl⟩, rfl⟩⟩
  · obtain ⟨segments, hscan, rfl⟩ := (hparse template).1 htemplate
    cases hscan.symm.trans ((scan_eq_ok_iff _).2 ⟨pieces, hwrites, rfl⟩)
    have hfields : fields ⟨text, segmentsOf [] pieces⟩ = pieces.filterMap Piece.name? :=
      fieldNames_segmentsOf [] pieces
    refine ⟨hfields, fun h => literal_mem_segmentsOf h rfl, segmentsOf_alternate [] pieces, fun args model => ⟨?_, ?_⟩⟩
    · intro h
      rw [hfields] at h
      exact renderSegments_segmentsOf [] h
    · intro before name after hnames hbefore hname
      exact renderSegments_missing hnames hbefore hname

/-- A text with blanks in a group and two groups side by side. -/
theorem parse_reads_course : ∃ template, parse "COURSE#\x7b code \x7d\x7bterm\x7d" = .ok template ∧
    template.fields = ["code", "term"] ∧
    template.render [("code", .string "A"), ("term", .number .zero)] "Course" = .ok "COURSE#A0" ∧
    template.render [("code", .string "A"), ("term", .null)] "Course" = .error (.missingKeyField "Course" "term") := by
  have hwrites : Writes (['C', 'O', 'U', 'R', 'S', 'E', '#'].map .plain ++
      [.group [' ', 'c', 'o', 'd', 'e', ' '], .group ['t', 'e', 'r', 'm']])
      "COURSE#\x7b code \x7d\x7bterm\x7d".toList := by
    have hcode : Text.trim [' ', 'c', 'o', 'd', 'e', ' '] ≠ [] := by decide
    have hterm : Text.trim ['t', 'e', 'r', 'm'] ≠ [] := by decide
    exact ⟨by simp [Piece.WellFormed, hcode, hterm], by decide⟩
  obtain ⟨template, htemplate⟩ := (parse_reads _).1.2 ⟨_, hwrites⟩
  obtain ⟨hfields, -, -, hrender⟩ := (parse_reads _).2 _ template hwrites htemplate
  have hnames : template.fields = ["code", "term"] := hfields.trans (by decide)
  have hcode : ∀ term, Arguments.HasScalar [("code", .string "A"), ("term", term)] "code" := fun term =>
    ⟨.string "A", rfl, trivial⟩
  have hterm : Arguments.HasScalar [("code", .string "A"), ("term", .number .zero)] "term" :=
    ⟨.number .zero, rfl, trivial⟩
  refine ⟨template, htemplate, hnames, ?_, ?_⟩
  · rw [(hrender _ _).1 (by rw [hnames]; exact List.forall_mem_cons.2 ⟨hcode _, by simpa using hterm⟩)]
    decide
  · exact (hrender _ _).2 ["code"] "term" [] hnames (by simpa using hcode .null) rfl

end Template

end KeyedRecords
