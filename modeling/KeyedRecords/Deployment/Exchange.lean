import KeyedRecords.Deployment.Description
import KeyedRecords.Deployment.Procedure
import KeyedRecords.Service.Response

/-! What is sent to the service for each call of a deployment, and how the answer is read. -/

namespace KeyedRecords.Deployment

def KeyNames.schemaJson (keys : KeyNames) : Json :=
  let element (name type : String) : Json :=
    .map [("AttributeName", .string name), ("KeyType", .string type)]
  .list [element keys.partitionName "HASH", element keys.sortName "RANGE"]

def definedNames (keys : List KeyNames) : List String :=
  (keys.flatMap fun k => [k.partitionName, k.sortName]).eraseDups

def definitionsJson (keys : List KeyNames) : Json :=
  .list ((definedNames keys).map fun name =>
    .map [("AttributeName", .string name), ("AttributeType", .string "S")])

def IndexConfig.json (index : IndexConfig) : Json :=
  .map [("IndexName", .string index.name), ("KeySchema", index.keys.schemaJson),
    ("Projection", .map [("ProjectionType", .string "ALL")])]

def TableConfig.allKeys (config : TableConfig) : List KeyNames :=
  config.keys :: config.indexes.map IndexConfig.keys

namespace ControlCall

def operation : ControlCall → String
  | describeTable _ => "DescribeTable"
  | createTable _ => "CreateTable"
  | addIndex _ _ => "UpdateTable"
  | deleteTable _ => "DeleteTable"

def members : ControlCall → List (String × Option Json)
  | createTable config => [
      ("KeySchema", some config.keys.schemaJson),
      ("AttributeDefinitions", some (definitionsJson config.allKeys)),
      ("BillingMode", some (.string "PAY_PER_REQUEST")),
      ("GlobalSecondaryIndexes",
        if config.indexes.isEmpty then none else some (.list (config.indexes.map IndexConfig.json)))]
  | addIndex _ index => [
      ("AttributeDefinitions", some (definitionsJson [index.keys])),
      ("GlobalSecondaryIndexUpdates", some (.list [.map [("Create", index.json)]]))]
  | describeTable _ | deleteTable _ => []

def bodyMember : ControlCall → String
  | describeTable _ => "Table"
  | createTable _ | addIndex _ _ | deleteTable _ => "TableDescription"

/-- What the members of a body say in answer to a call. -/
def readBody (members : Json.Map) : (call : ControlCall) → call.Answer
  | describeTable _ =>
    ((Assoc.find? members "Table").bind Json.asMap?).map TableState.ofDescription
  | createTable _ | addIndex _ _ | deleteTable _ => ()

/-- What an exception says in answer to a call, if it does: that there is no table answers its description. -/
def readException? (name : String) : (call : ControlCall) → Option call.Answer
  | describeTable _ => if name = "ResourceNotFoundException" then some none else none
  | createTable _ | addIndex _ _ | deleteTable _ => none

end ControlCall

/-! ## Clients -/

/-- What deployments rely on of the client that sends their requests and takes in the answers. -/
structure ControlClient where
  /-- The request for an operation on a table with some more members, if one can be sent. -/
  about? (operation table : String) (members : List (String × Option Json)) : Option ServiceRequest
  /-- Whether a body can be read for its member of some name. -/
  reads (member : String) (body : Json) : Bool
  /-- Whether a request can be sent is up to the name of the table. -/
  isSome_about? (operation other table : String) (members others : List (String × Option Json)) :
    (about? operation table members).isSome = (about? other table others).isSome
  /-- A request has the members that were given a value, and besides these only the name of the table. -/
  find?_about (operation table : String) (members : List (String × Option Json)) (request : ServiceRequest) :
    about? operation table members = some request → ("TableName" :: Assoc.keys members).Nodup →
      ∀ name, name ≠ "TableName" → Assoc.find? request.body name = (Assoc.find? members name).join

namespace ControlClient

variable (client : ControlClient)

def request? (call : ControlCall) : Option ServiceRequest :=
  client.about? call.operation call.table call.members

def answer? (call : ControlCall) : ServiceResponse → Option call.Answer
  | .ok body => if client.reads call.bodyMember body then body.asMap?.map (call.readBody ·) else none
  | .exception code _ => call.readException? (exceptionName code)
  | .timeout | .unsent => none

def readResponse (call : ControlCall) (response : ServiceResponse) : call.Reply :=
  match client.answer? call response with
  | some answer => .ok answer
  | none => .error (.ofResponse response)

/-- The client that reads a body if all members it knows are of their types. -/
def strict : ControlClient where
  about? := ServiceRequest.about?
  reads member body := (BodyType.object [(member, .object tableMembers)]).admits body
  isSome_about? operation other table members others :=
    (ServiceRequest.isSome_about? operation table members).trans (ServiceRequest.isSome_about? other table others).symm
  find?_about _ _ _ _ h hnames _ hname := ServiceRequest.find?_about h hnames hname

end ControlClient

namespace ControlCall

def request? (call : ControlCall) : Option ServiceRequest := ControlClient.strict.request? call

def readResponse (call : ControlCall) (response : ServiceResponse) : call.Reply :=
  ControlClient.strict.readResponse call response

end ControlCall

end KeyedRecords.Deployment
