import KeyedRecords.Update.Basic

/-! The effect of an update on an item. Assignments take effect one after another, and the first that fails fails the
update. -/

namespace KeyedRecords

def addTexts (current added : String) : Except StoreError String :=
  match Attribute.readNumber current, Attribute.readNumber added with
  | .error e, _ | .ok _, .error e => .error (.validation (e.message?.getD ""))
  | .ok a, .ok b =>
    match a.add? b with
    | some sum => .ok sum.text
    | none => .error (.validation "ADD result is not a finite number")

namespace Assignment

/-- The path as error messages show it. -/
def pathText (assignment : Assignment) : String := ".".intercalate assignment.path

/-- What an assignment leaves where it found a value, or none. -/
def newValue (action : UpdateAction) (assignment : Assignment) (current? : Option Attribute) :
    Except StoreError Attribute :=
  match action, current?, assignment.value with
  | .set, _, value => .ok value
  | .add, none, .number added => .ok (.number added)
  | .add, some (.number current), .number added => (addTexts current added).map .number
  | .add, _, _ =>
    .error (.validation s!"ADD on '{assignment.pathText}' requires numeric operands")

/-- The item with the assignment made below the rest of its path. Every name but the last has to be that
of a map. -/
def applyBelow (action : UpdateAction) (assignment : Assignment) :
    List String → Item → Except StoreError Item
  | [], _ => .error (.validation "empty update path")
  | [name], item => do
    let value ← assignment.newValue action (Assoc.find? item name)
    pure (Assoc.insert item name value)
  | name :: rest, item =>
    match Assoc.find? item name with
    | some (.map inner) => do
      let inner ← applyBelow action assignment rest inner
      pure (Assoc.insert item name (.map inner))
    | _ =>
      .error (.validation s!"The document path '{assignment.pathText}' is invalid for update")

def apply (action : UpdateAction) (item : Item) (assignment : Assignment) : Except StoreError Item :=
  assignment.applyBelow action assignment.path item

end Assignment

def Update.apply (update : Update) (item : Item) : Except StoreError Item :=
  update.assignments.foldlM (Assignment.apply update.action) item

end KeyedRecords
