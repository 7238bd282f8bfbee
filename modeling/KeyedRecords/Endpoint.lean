/-! Where the store is reached: at a URL of one's own, or at the service of a region. -/

namespace KeyedRecords

structure Endpoint where
  url? : Option String
  region : String
  deriving DecidableEq, Repr

namespace Endpoint

/-- The endpoint that environment variables name. An empty URL is none; the second variable counts only
where the first is not set. -/
def ofEnvironment (setting? : String → Option String) : Endpoint where
  url? := ((setting? "AWS_ENDPOINT_URL").or (setting? "DYNAMODB_ENDPOINT_URL")).filter (· ≠ "")
  region := (setting? "AWS_REGION").getD "us-east-1"

def display (endpoint : Endpoint) : String :=
  match endpoint.url? with
  | some url => s!"Local DynamoDB ({url})"
  | none => s!"AWS DynamoDB (region: {endpoint.region})"

end Endpoint

end KeyedRecords
