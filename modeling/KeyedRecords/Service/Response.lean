import KeyedRecords.Service.BodyType
import KeyedRecords.Service.Request

/-! How the answer to a request is read: the items in its body, or the exception that it names. Each operation knows
members of its own; of a body, only what the call asks for is turned into items. -/

namespace KeyedRecords

inductive ServiceResponse where
  | ok (body : Json)
  | exception (code : String) (message? : Option String)
  /-- Nothing came back in time. -/
  | timeout
  /-- There was no request that could be sent. -/
  | unsent
  deriving DecidableEq

/-- The name of the exception that a code stands for; from a colon on, the code says where it comes from. -/
def exceptionName (code : String) : String := String.ofList (code.toList.takeWhile (· ≠ ':'))

/-! ## Bodies -/

/-- The units that an operation used, in all or of one index. -/
def unitMembers : List (String × BodyType) :=
  [("CapacityUnits", .float), ("ReadCapacityUnits", .float), ("WriteCapacityUnits", .float)]

def vectorUsageType : BodyType :=
  .object [("VectorSearchRequestBytes", .float), ("VectorWriteRequestBytes", .float)]

def usageType : BodyType := .object (unitMembers ++ [
  ("TableName", .string), ("Table", .object unitMembers),
  ("LocalSecondaryIndexes", .map (.object unitMembers)),
  ("GlobalSecondaryIndexes", .map (.object unitMembers)), ("VectorIndexes", .map vectorUsageType)])

def writeMembers : List (String × BodyType) := [
  ("Attributes", .item),
  ("ConsumedCapacity", usageType),
  ("ItemCollectionMetrics", .object [
    ("ItemCollectionKey", .item), ("SizeEstimateRangeGB", .list .float)])]

/-- The members that the body of an answer to a call may have. -/
def Call.Kind.bodyMembers : Call.Kind → List (String × BodyType)
  | getItem => [("Item", .item), ("ConsumedCapacity", usageType)]
  | putItem | updateItem | deleteItem => writeMembers
  | query => [("Items", .list .item), ("Count", .int32), ("ScannedCount", .int32),
      ("LastEvaluatedKey", .item), ("ConsumedCapacity", usageType)]

/-- The item in a member of a body; none if the member is absent or null. -/
def itemAt? (body : Json.Map) (name : String) : Option ServiceItem :=
  (Assoc.find? body name).bind ServiceItem.ofJson?

/-- The items in a member of a body; none if the member is absent or null. -/
def itemsAt? (body : Json.Map) (name : String) : Option (List ServiceItem) := do
  (← (Assoc.find? body name).bind Json.asList?).mapM ServiceItem.ofJson?

/-! ## Replies -/

namespace Call

/-- Whether an operation writes items; some exceptions are known for writes only. -/
def isWrite (call : Call) : Bool :=
  match call.kind with
  | .putItem | .updateItem | .deleteItem => true
  | .getItem | .query => false

/-- The failure that an exception of a write stands for, if it has one of its own. -/
def writeFailure? (code : String) (message? : Option String) : Option StoreError :=
  match code with
  | "ConditionalCheckFailedException" => some (.conditionFailed (message?.getD "conditional check failed"))
  | "ItemCollectionSizeLimitExceededException" => some (.service "Item collection size limit exceeded")
  | "TransactionConflictException" => some (.service "Transaction conflict")
  | _ => none

/-- The failure that an exception of any operation stands for, if it has one of its own. -/
def anyFailure? (call : Call) (code : String) : Option StoreError :=
  match code with
  | "ResourceNotFoundException" => some (.tableNotFound call.layout.table)
  | "ProvisionedThroughputExceededException" => some (.throttled "Throughput exceeded, please retry")
  | "RequestLimitExceeded" => some (.throttled "Request limit exceeded, please retry")
  | "InternalServerError" => some (.service "DynamoDB internal server error")
  | _ => none

/-- The failure that an exception without one of its own stands for. -/
def otherFailure (call : Call) (code message : String) : StoreError :=
  match code with
  | "ValidationException" => .validation message
  | "ThrottlingException" => .throttled message
  | _ => .service s!"{call.operation} failed: {code}: {message}"

def failure (call : Call) (code : String) (message? : Option String) : StoreError :=
  let own? := if call.isWrite then writeFailure? code message? else none
  (own?.or (call.anyFailure? code)).getD (call.otherFailure code (message?.getD "no message"))

/-- What a body says in answer to a call. An empty map in the place of an old item or a last key is
nothing. -/
def readBody (body : Json.Map) : (call : Call) → call.Reply
  | getItem _ _ => (itemAt? body "Item").mapM ServiceValue.toItem
  | putItem _ _ _ => pure ()
  | updateItem _ _ _ _ => ServiceValue.toItem ((itemAt? body "Attributes").getD [])
  | query _ => do
    let items ← ((itemsAt? body "Items").getD []).mapM ServiceValue.toItem
    let lastKey? ← ((itemAt? body "LastEvaluatedKey").filter (!·.isEmpty)).mapM ServiceValue.toItem
    pure ⟨items, lastKey?⟩
  | deleteItem _ _ => ((itemAt? body "Attributes").filter (!·.isEmpty)).mapM ServiceValue.toItem

def readResponse (call : Call) : ServiceResponse → call.Reply
  | .ok body =>
    match BodyType.members? call.kind.bodyMembers body with
    | some members => call.readBody members
    | none => .error .unreadable
  | .exception code message? => .error (call.failure (exceptionName code) message?)
  | .timeout => .error .noResponse
  | .unsent => .error .unsent

end Call

end KeyedRecords
