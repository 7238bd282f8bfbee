import KeyedRecords.Service.Value
import KeyedRecords.Store.Call
import KeyedRecords.Text.Blank
import KeyedRecords.Update.Expression

/-! What is sent for each call: the name of an operation and a JSON body. A member that is not set is left out, and
without the name of a table nothing is sent. -/

namespace KeyedRecords

structure ServiceRequest where
  operation : String
  body : Json.Map
  deriving DecidableEq

namespace ServiceRequest

/-- The request about a table with some more members, of which those without a value are left out. There is
none about a table whose name is blank. -/
def about? (operation table : String) (members : List (String × Option Json)) : Option ServiceRequest :=
  if table.toList.all Text.isBlank then none
  else some {
    operation := operation
    body := Assoc.ofList (("TableName", .string table) :: Assoc.present members) }

theorem isSome_about? (operation table : String) (members : List (String × Option Json)) :
    (about? operation table members).isSome = !table.toList.all Text.isBlank := by
  rw [about?]
  split <;> simp_all

/-- The members of a request are those that have a value. -/
theorem find?_about {operation table : String} {members : List (String × Option Json)} {request : ServiceRequest}
    (h : about? operation table members = some request) (hnames : ("TableName" :: Assoc.keys members).Nodup)
    {name : String} (hname : name ≠ "TableName") :
    Assoc.find? request.body name = (Assoc.find? members name).join := by
  rw [about?] at h
  split at h
  · cases h
  · obtain rfl := Option.some.inj h
    have hkeys : (Assoc.keys (("TableName", Json.string table) :: Assoc.present members)).Nodup :=
      hnames.sublist ((Assoc.keys_present_sublist members).cons_cons _)
    calc Assoc.find? (Assoc.ofList (("TableName", Json.string table) :: Assoc.present members)) name
        = Assoc.find? (Assoc.present members) name := (Assoc.find?_ofList hkeys name).trans (if_neg hname.symm)
      _ = (Assoc.find? members name).join := Assoc.find?_present (List.nodup_cons.1 hnames).2 name

end ServiceRequest

def textsJson (texts : List (String × String)) : Json := .map (Assoc.mapValues .string texts)

def Precondition.expression (layout : TableLayout) : Precondition → String
  | .absent => s!"attribute_not_exists({layout.partitionName})"
  | .present => s!"attribute_exists({layout.partitionName})"

/-- The greatest page size that the service takes: the last signed 32-bit word. -/
def pageSizeBound : Nat := 2147483647

namespace Call

def operation (call : Call) : String :=
  match call.kind with
  | .getItem => "GetItem"
  | .putItem => "PutItem"
  | .updateItem => "UpdateItem"
  | .query => "Query"
  | .deleteItem => "DeleteItem"

def layout : Call → TableLayout
  | getItem layout _ | putItem layout _ _ | updateItem layout _ _ _ | deleteItem layout _ => layout
  | query bound => bound.layout

/-- The members of the request for a call, besides the name of the table. -/
def members : Call → List (String × Option Json)
  | getItem layout key => [
      ("Key", some (Item.serviceJson (layout.keyItem key)))]
  | putItem layout item condition? => [
      ("Item", some (Item.serviceJson item)),
      ("ConditionExpression", condition?.map fun c => .string (c.expression layout))]
  | updateItem layout key update condition? => [
      ("Key", some (Item.serviceJson (layout.keyItem key))),
      ("UpdateExpression", some (.string update.expression.text)),
      ("ExpressionAttributeNames", some (textsJson update.expression.names)),
      ("ExpressionAttributeValues", some (Item.serviceJson update.expression.values)),
      ("ConditionExpression", condition?.map fun c => .string (c.expression layout)),
      ("ReturnValues", some (.string "ALL_NEW"))]
  | query bound => [
      ("IndexName", bound.index?.map .string),
      ("KeyConditionExpression", some (.string bound.keyCondition)),
      ("ExpressionAttributeValues", some (Item.serviceJson bound.values)),
      ("ExpressionAttributeNames",
        if bound.projectionNames.isEmpty then none else some (textsJson bound.projectionNames)),
      ("ProjectionExpression", bound.projectionExpression?.map .string),
      ("ScanIndexForward", some (.boolean bound.ascending)),
      ("Limit", (Number.ofInt? (min bound.limit pageSizeBound)).map .number),
      ("ExclusiveStartKey", bound.startKey?.map Item.serviceJson)]
  | deleteItem layout key => [
      ("Key", some (Item.serviceJson (layout.keyItem key))),
      ("ReturnValues", some (.string "ALL_OLD"))]

def request? (call : Call) : Option ServiceRequest :=
  ServiceRequest.about? call.operation call.layout.table call.members

end Call

end KeyedRecords
