import KeyedRecords.Proofs.Deployment.Config
import KeyedRecords.Proofs.Deployment.Log
import KeyedRecords.Proofs.Lists

/-! The attributes that a table and its indexes are keyed on have distinct names, as each is the name of its index with
one of two endings. A request to create the table, or an index, defines just the attributes that its key schemas refer
to. Main statement: `TableConfig.declares_keys`. -/

namespace KeyedRecords

/-! ## What a request says -/

namespace Json

def member? (json : Json) (name : String) : Option Json := json.asMap?.bind (Assoc.find? · name)

/-- The elements of a list; of anything else, or nothing, there are none. -/
def elements (json? : Option Json) : List Json := (json?.bind asList?).getD []

/-- The attributes that the elements of a list name; the name is empty where an element has none. -/
def attributeNames (json? : Option Json) : List String :=
  (elements json?).map fun element => ((element.member? "AttributeName").bind asString?).getD ""

def schemaNames (json : Json) : List String := attributeNames (json.member? "KeySchema")

end Json

namespace ServiceRequest

def definedNames (request : ServiceRequest) : List String :=
  Json.attributeNames ((Json.map request.body).member? "AttributeDefinitions")

/-- The indexes that a request describes: those made with the table, and those added to it. -/
def indexes (request : ServiceRequest) : List Json :=
  let body := Json.map request.body
  Json.elements (body.member? "GlobalSecondaryIndexes") ++
    (Json.elements (body.member? "GlobalSecondaryIndexUpdates")).filterMap (·.member? "Create")

/-- The attributes that the key schemas in a request refer to, that of the table first. -/
def schemaNames (request : ServiceRequest) : List String :=
  (Json.map request.body).schemaNames ++ request.indexes.flatMap Json.schemaNames

end ServiceRequest

/-! ## Names -/

theorem append_pk_ne_append_sk (a b : String) : a ++ "pk" ≠ b ++ "sk" := by
  intro h
  have hlists : a.toList ++ ['p', 'k'] = b.toList ++ ['s', 'k'] := by simpa using congrArg String.toList h
  exact absurd (List.append_inj' hlists rfl).2 (by decide)

/-- Names with one of two endings are distinct if they are distinct without. -/
theorem nodup_pk_sk {names : List String} (h : names.Nodup) :
    (names.flatMap fun name => [name ++ "pk", name ++ "sk"]).Nodup := by
  have hends : ∀ name : String, [name ++ "pk", name ++ "sk"].Nodup := fun name => by
    simp [append_pk_ne_append_sk name name]
  have hapart : ∀ {a b : String}, a ≠ b → List.Disjoint [a ++ "pk", a ++ "sk"] [b ++ "pk", b ++ "sk"] := by
    intro a b hne
    have hmixed := append_pk_ne_append_sk b a
    have hmixed' := (append_pk_ne_append_sk a b).symm
    simp [hne.symm, hmixed, hmixed']
  exact List.nodup_flatMap.2 ⟨fun name _ => hends name, h.imp hapart⟩

namespace Deployment

def KeyNames.names (keys : KeyNames) : List String := [keys.partitionName, keys.sortName]

def TableConfig.keyNames (config : TableConfig) : List String := config.allKeys.flatMap KeyNames.names

namespace TableConfig

variable {table : String} {names : List String} {config : TableConfig}

/-! ## Keys of a configuration -/

/-- The keys of a table are named as those of an index without a name would be. -/
theorem keyNames_eq (config : TableConfig) : config.keyNames =
    ("" :: IndexConfig.names config.indexes).flatMap fun name => [name ++ "pk", name ++ "sk"] := by
  simp [keyNames, allKeys, keys, IndexConfig.names, List.flatMap_map, KeyNames.names, IndexConfig.keys]

theorem names_ne_empty (h : ofNames table names = .ok config) : "" ∉ IndexConfig.names config.indexes := by
  obtain ⟨hnames, rfl⟩ := ofNames_eq_ok_iff.1 h
  rw [IndexConfig.names_map_mk, List.mem_eraseDups]
  intro hmem
  exact absurd (hnames "" hmem) (by decide)

theorem nodup_keyNames (h : ofNames table names = .ok config) : config.keyNames.Nodup := by
  have hempty := names_ne_empty h
  obtain ⟨-, rfl⟩ := ofNames_eq_ok_iff.1 h
  rw [keyNames_eq]
  refine nodup_pk_sk (List.nodup_cons.2 ⟨hempty, ?_⟩)
  rw [IndexConfig.names_map_mk]
  exact nodup_eraseDups names

theorem length_keyNames (config : TableConfig) : config.keyNames.length = 2 + 2 * config.indexes.length := by
  have hlength : ∀ keys : KeyNames, keys.names.length = 2 := fun _ => rfl
  simp [keyNames, allKeys, List.length_flatMap, hlength, Function.comp_def]
  omega

end TableConfig

/-! ## What requests declare -/

theorem attributeNames_definitionsJson (keys : List KeyNames) :
    Json.attributeNames (some (definitionsJson keys)) = definedNames keys := by
  have hname : ∀ name : String, (((Json.map [("AttributeName", .string name), ("AttributeType", .string "S")]).member?
      "AttributeName").bind Json.asString?).getD "" = name := fun _ => rfl
  simp [Json.attributeNames, Json.elements, definitionsJson, Json.asList?, Function.comp_def, hname]

theorem schemaNames_indexJson (index : IndexConfig) : index.json.schemaNames = index.keys.names := rfl

theorem definedNames_of_nodup {keys : List KeyNames} (h : (keys.flatMap KeyNames.names).Nodup) :
    definedNames keys = keys.flatMap KeyNames.names := eraseDups_of_nodup h

/-- The members of the request for a call are named once each. -/
theorem ControlCall.nodup_members (call : ControlCall) : ("TableName" :: Assoc.keys call.members).Nodup := by
  cases call <;> simp [members, Assoc.keys]

namespace ControlClient

variable {client : ControlClient} {call : ControlCall} {request : ServiceRequest}

/-- The members of a request are those of its call that have a value. -/
theorem member?_request (h : client.request? call = some request) {name : String} (hname : name ≠ "TableName") :
    (Json.map request.body).member? name = (Assoc.find? call.members name).join :=
  client.find?_about _ _ _ _ h call.nodup_members name hname

theorem definedNames_request (h : client.request? call = some request) :
    request.definedNames = Json.attributeNames (Assoc.find? call.members "AttributeDefinitions").join := by
  rw [ServiceRequest.definedNames, member?_request h (by decide)]

theorem schemaNames_request (h : client.request? call = some request) :
    request.schemaNames = Json.attributeNames (Assoc.find? call.members "KeySchema").join ++
      (Json.elements (Assoc.find? call.members "GlobalSecondaryIndexes").join ++
        (Json.elements (Assoc.find? call.members "GlobalSecondaryIndexUpdates").join).filterMap
          (·.member? "Create")).flatMap Json.schemaNames := by
  rw [ServiceRequest.schemaNames, Json.schemaNames, ServiceRequest.indexes, member?_request h (by decide),
    member?_request h (by decide), member?_request h (by decide)]

variable {config : TableConfig} {table : String} {index : IndexConfig}

theorem definedNames_createTable (h : client.request? (.createTable config) = some request) :
    request.definedNames = Deployment.definedNames config.allKeys :=
  (definedNames_request h).trans (attributeNames_definitionsJson config.allKeys)

theorem schemaNames_createTable (h : client.request? (.createTable config) = some request) :
    request.schemaNames = config.keyNames := by
  let indexes? : Option Json :=
    if config.indexes.isEmpty then none else some (.list (config.indexes.map IndexConfig.json))
  have hindexes : Json.elements indexes? = config.indexes.map IndexConfig.json := by
    dsimp only [indexes?]
    cases config.indexes <;> rfl
  calc request.schemaNames
      = config.keys.names ++ (Json.elements indexes? ++ []).flatMap Json.schemaNames := schemaNames_request h
    _ = config.keys.names ++ (config.indexes.map IndexConfig.json).flatMap Json.schemaNames := by
        rw [List.append_nil, hindexes]
    _ = config.keyNames := by
        simp [TableConfig.keyNames, TableConfig.allKeys, List.flatMap_map, schemaNames_indexJson]

theorem definedNames_addIndex (h : client.request? (.addIndex table index) = some request) :
    request.definedNames = Deployment.definedNames [index.keys] :=
  (definedNames_request h).trans (attributeNames_definitionsJson [index.keys])

theorem schemaNames_addIndex (h : client.request? (.addIndex table index) = some request) :
    request.schemaNames = index.keys.names :=
  schemaNames_request h

end ControlClient

/-- A table with indexes of some names has an index for each name, once and in their order. All its keys are distinct
attributes. Its creation, which can be asked for if the table has a name, defines just these, as does that of an index
later on with the two that the index is keyed on, whatever client sends the request. -/
theorem TableConfig.declares_keys {table : String} {names : List String} {config : TableConfig}
    (h : ofNames table names = .ok config) :
    IndexConfig.names config.indexes = names.eraseDups ∧
      (config.keyNames = ["pk", "sk"] ++ names.eraseDups.flatMap fun name => [name ++ "pk", name ++ "sk"]) ∧
      config.keyNames.Nodup ∧ config.keyNames.length = 2 + 2 * config.indexes.length ∧
      ((ControlCall.createTable config).request? = none ↔ table.toList.all Text.isBlank = true) ∧
      (∀ (client : ControlClient) request, client.request? (.createTable config) = some request →
        request.definedNames = config.keyNames ∧ request.schemaNames = config.keyNames) ∧
      ∀ index ∈ config.indexes, ∀ (client : ControlClient) request,
        client.request? (.addIndex table index) = some request →
          request.definedNames = [index.name ++ "pk", index.name ++ "sk"] ∧
          request.schemaNames = [index.name ++ "pk", index.name ++ "sk"] := by
  have hkeys := nodup_keyNames h
  have hindex : ∀ index : IndexConfig, ([index.keys].flatMap KeyNames.names).Nodup := fun index =>
    nodup_pk_sk (List.nodup_singleton index.name)
  obtain ⟨-, rfl⟩ := ofNames_eq_ok_iff.1 h
  refine ⟨IndexConfig.names_map_mk _, ?_, hkeys, length_keyNames _, ?_, fun client request hrequest => ?_,
    fun index _ client request hrequest => ?_⟩
  · rw [keyNames_eq, IndexConfig.names_map_mk, List.flatMap_cons]
    rfl
  · rw [← Option.isSome_eq_false_iff.trans Option.isNone_iff_eq_none]
    refine (Eq.congr_left (ServiceRequest.isSome_about? _ _ _)).trans ?_
    simp [ControlCall.table]
  · exact ⟨(ControlClient.definedNames_createTable hrequest).trans (definedNames_of_nodup hkeys),
      ControlClient.schemaNames_createTable hrequest⟩
  · exact ⟨(ControlClient.definedNames_addIndex hrequest).trans (definedNames_of_nodup (hindex index)),
      ControlClient.schemaNames_addIndex hrequest⟩

/-- The name of one index is that of a key of another. -/
theorem TableConfig.declares_keys_days :
    ofNames "school" ["day", "daypk", "day"] = .ok ⟨"school", [⟨"day"⟩, ⟨"daypk"⟩]⟩ ∧
    ∃ request, (ControlCall.createTable ⟨"school", [⟨"day"⟩, ⟨"daypk"⟩]⟩).request? = some request ∧
      request.definedNames = ["pk", "sk", "daypk", "daysk", "daypkpk", "daypksk"] ∧
      request.schemaNames = ["pk", "sk", "daypk", "daysk", "daypkpk", "daypksk"] := by
  have hconfig : ofNames "school" ["day", "daypk", "day"] = .ok ⟨"school", [⟨"day"⟩, ⟨"daypk"⟩]⟩ := rfl
  obtain ⟨-, -, -, -, hsent, hdeclared, -⟩ := declares_keys hconfig
  obtain ⟨request, hrequest⟩ := Option.ne_none_iff_exists'.1 (mt hsent.1 (by decide))
  exact ⟨hconfig, request, hrequest, hdeclared .strict request hrequest⟩

end Deployment

end KeyedRecords
