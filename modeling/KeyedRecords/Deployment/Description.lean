import KeyedRecords.Deployment.Plan
import KeyedRecords.Service.BodyType

/-! The table descriptions that the service answers with, and the state of a table that is read from one. A deployment
needs the name and the status of each index and the status of the table; the other members are known so that a
description with one of the wrong type is refused. -/

namespace KeyedRecords.Deployment

open BodyType

/-! ## The members of a description -/

def keySchemaType : BodyType := list (object [("AttributeName", string), ("KeyType", string)])

def projectionType : BodyType :=
  object [("ProjectionType", string), ("NonKeyAttributes", list string)]

def provisionedType : BodyType := object [
  ("LastIncreaseDateTime", time), ("LastDecreaseDateTime", time), ("NumberOfDecreasesToday", int64),
  ("ReadCapacityUnits", int64), ("WriteCapacityUnits", int64)]

def onDemandType : BodyType := object [("MaxReadRequestUnits", int64), ("MaxWriteRequestUnits", int64)]

def warmType : BodyType :=
  object [("ReadUnitsPerSecond", int64), ("WriteUnitsPerSecond", int64), ("Status", string)]

def indexMembers : List (String × BodyType) := [
  ("IndexName", string), ("Projection", projectionType), ("IndexSizeBytes", int64), ("ItemCount", int64),
  ("IndexArn", string)]

def localIndexType : BodyType := object (indexMembers ++ [("KeySchema", keySchemaType)])

def globalIndexType : BodyType := object (indexMembers ++ [
  ("KeySchema", keySchemaType), ("IndexStatus", string), ("Backfilling", boolean),
  ("ProvisionedThroughput", provisionedType), ("OnDemandThroughput", onDemandType),
  ("WarmThroughput", warmType)])

def vectorIndexType : BodyType := object (indexMembers ++ [
  ("IndexStatus", string), ("Backfilling", boolean),
  ("VectorAttribute", object [("AttributeName", string)]),
  ("SearchSchema", list (object [("AttributeName", string), ("SearchSchemaElementType", string)])),
  ("Dimensions", int64), ("DistanceFunction", string)])

def overrideMembers : List (String × BodyType) := [
  ("ProvisionedThroughputOverride", object [("ReadCapacityUnits", int64)]),
  ("OnDemandThroughputOverride", object [("MaxReadRequestUnits", int64)]),
  ("WarmThroughput", warmType)]

def storageType : BodyType := object [("TableClass", string), ("LastUpdateDateTime", time)]

def replicaType : BodyType := object (overrideMembers ++ [
  ("RegionName", string), ("ReplicaStatus", string), ("ReplicaArn", string),
  ("ReplicaStatusDescription", string), ("ReplicaStatusPercentProgress", string),
  ("KMSMasterKeyId", string),
  ("GlobalSecondaryIndexes", list (object (("IndexName", string) :: overrideMembers))),
  ("ReplicaInaccessibleDateTime", time), ("ReplicaTableClassSummary", storageType),
  ("GlobalTableSettingsReplicationMode", string)])

def tableMembers : List (String × BodyType) := [
  ("AttributeDefinitions", list (object [("AttributeName", string), ("AttributeType", string)])),
  ("TableName", string), ("KeySchema", keySchemaType), ("TableStatus", string),
  ("CreationDateTime", time), ("ProvisionedThroughput", provisionedType), ("TableSizeBytes", int64),
  ("ItemCount", int64), ("TableArn", string), ("TableId", string),
  ("BillingModeSummary", object [("BillingMode", string), ("LastUpdateToPayPerRequestDateTime", time)]),
  ("LocalSecondaryIndexes", list localIndexType), ("GlobalSecondaryIndexes", list globalIndexType),
  ("VectorIndexes", list vectorIndexType),
  ("StreamSpecification", object [("StreamEnabled", boolean), ("StreamViewType", string)]),
  ("LatestStreamLabel", string), ("LatestStreamArn", string), ("GlobalTableVersion", string),
  ("Replicas", list replicaType),
  ("GlobalTableWitnesses", list (object [("RegionName", string), ("WitnessStatus", string)])),
  ("GlobalTableSettingsReplicationMode", string),
  ("RestoreSummary", object [("SourceBackupArn", string), ("SourceTableArn", string),
    ("RestoreDateTime", time), ("RestoreInProgress", boolean)]),
  ("SSEDescription", object [("Status", string), ("SSEType", string), ("KMSMasterKeyArn", string),
    ("InaccessibleEncryptionDateTime", time)]),
  ("ArchivalSummary", object [("ArchivalDateTime", time), ("ArchivalReason", string),
    ("ArchivalBackupArn", string)]),
  ("TableClassSummary", storageType), ("DeletionProtectionEnabled", boolean),
  ("DisassociationProtectionEnabled", boolean),
  ("OnDemandThroughput", onDemandType), ("WarmThroughput", warmType),
  ("MultiRegionConsistency", string)]

/-! ## The state of a table -/

/-- The text in a member of a description; none if the member is absent or null. -/
def textAt? (description : Json.Map) (name : String) : Option String :=
  (Assoc.find? description name).bind Json.asString?

/-- The status in a member of a description; one that is missing or unknown counts as active. -/
def statusAt (description : Json.Map) (name : String) : Status :=
  ((textAt? description name).map Status.ofWord).getD .active

def IndexState.ofDescription (description : Json.Map) : IndexState where
  name := (textAt? description "IndexName").getD ""
  status := statusAt description "IndexStatus"

def TableState.ofDescription (description : Json.Map) : TableState where
  status := statusAt description "TableStatus"
  indexes :=
    let indexes? := (Assoc.find? description "GlobalSecondaryIndexes").bind Json.asList?
    (indexes?.getD []).filterMap fun index => index.asMap?.map IndexState.ofDescription

end KeyedRecords.Deployment
