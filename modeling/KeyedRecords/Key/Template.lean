import KeyedRecords.Arguments
import KeyedRecords.Text.Blank

/-! A template such as `STUDENT#{firstName}` is literal text with the names of fields in braces. Rendering puts the
value of each field in its place. -/

namespace KeyedRecords

inductive Segment where
  | literal (text : String)
  | field (name : String)
  deriving DecidableEq, Repr

/-- The segment of a literal run, none when it is empty. -/
def Segment.ofLiteral (text : List Char) : List Segment :=
  if text.isEmpty then [] else [literal (String.ofList text)]

/-- A template: its text and the pieces it consists of. -/
structure Template where
  text : String
  segments : List Segment
  deriving DecidableEq, Repr

namespace Template

mutual

/-- The pieces of a text outside braces; `run` is the literal read so far. -/
def scan (run : List Char) : List Char → Except TemplateFault (List Segment)
  | [] => .ok (Segment.ofLiteral run)
  | c :: rest =>
    if c = '{' then scanField run [] rest
    else if c = '}' then .error .unmatchedBrace
    else scan (run ++ [c]) rest

/-- The pieces of a text inside braces; `name` is what was read since they opened. -/
def scanField (run name : List Char) : List Char → Except TemplateFault (List Segment)
  | [] => .error .unclosedBrace
  | c :: rest =>
    if c = '{' then .error .nestedBrace
    else if c = '}' then
      let trimmed := Text.trim name
      if trimmed.isEmpty then .error .emptyField
      else do
        let segments ← scan [] rest
        pure (Segment.ofLiteral run ++ .field (String.ofList trimmed) :: segments)
    else scanField run (name ++ [c]) rest

end

def parse (text : String) : Result Template :=
  match scan [] text.toList with
  | .ok segments => .ok ⟨text, segments⟩
  | .error fault => .error (.invalidTemplate text fault)

/-- A constant, whatever characters it has. -/
def literal (text : String) : Template := ⟨text, [.literal text]⟩

def fields (template : Template) : List String :=
  template.segments.filterMap fun
    | .field name => some name
    | .literal _ => none

def isStatic (template : Template) : Bool := template.fields.isEmpty

/-- The text of some pieces; fails at the first field without a value. -/
def renderSegments (args : Arguments) (model : String) : List Segment → Result String
  | [] => pure ""
  | .literal text :: rest => do pure (text ++ (← renderSegments args model rest))
  | .field name :: rest => do
    match ← args.segment? name with
    | some value => pure (value ++ (← renderSegments args model rest))
    | none => throw (.missingKeyField model name)

/-- The text of the pieces before the first field without a value. -/
def leadSegments (args : Arguments) : List Segment → Result String
  | [] => pure ""
  | .literal text :: rest => do pure (text ++ (← leadSegments args rest))
  | .field name :: rest => do
    match ← args.segment? name with
    | some value => pure (value ++ (← leadSegments args rest))
    | none => pure ""

def render (template : Template) (args : Arguments) (model : String) : Result String :=
  renderSegments args model template.segments

/-- The text up to the first field without a value. -/
def lead (template : Template) (args : Arguments) : Result String := leadSegments args template.segments

end Template

end KeyedRecords
