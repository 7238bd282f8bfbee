import KeyedRecords.Attribute

/-! The attribute values that the table service knows. Items hold fewer kinds: sets are read as lists, and binary
values cannot be read. -/

namespace KeyedRecords

inductive ServiceValue where
  | string (text : String)
  | number (text : String)
  | boolean (value : Bool)
  | null (flag : Bool)
  | list (elements : List ServiceValue)
  | map (entries : List (String × ServiceValue))
  | stringSet (texts : List String)
  | numberSet (texts : List String)
  | binary (bytes : List UInt8)
  | binarySet (values : List (List UInt8))
  /-- A kind of value that the service may know and we do not. -/
  | unknown
  deriving Inhabited

abbrev ServiceItem := List (String × ServiceValue)

namespace ServiceValue

mutual

def ofAttribute : Attribute → ServiceValue
  | .string text => string text
  | .number text => number text
  | .boolean value => boolean value
  | .null => null true
  | .list elements => list (ofAttributeList elements)
  | .map entries => map (ofItem entries)

def ofAttributeList : List Attribute → List ServiceValue
  | [] => []
  | value :: rest => ofAttribute value :: ofAttributeList rest

def ofItem : Item → ServiceItem
  | [] => []
  | (name, value) :: rest => (name, ofAttribute value) :: ofItem rest

end

mutual

def toAttribute : ServiceValue → Except StoreError Attribute
  | string text => pure (.string text)
  | number text => pure (.number text)
  | boolean value => pure (.boolean value)
  | null _ => pure .null
  | list elements => do pure (.list (← toAttributeList elements))
  | map entries => do pure (.map (← toItem entries))
  | stringSet texts => pure (.list (texts.map .string))
  | numberSet texts => pure (.list (texts.map .number))
  | binary _ | binarySet _ | unknown => throw .unsupportedAttribute

def toAttributeList : List ServiceValue → Except StoreError (List Attribute)
  | [] => pure []
  | value :: rest => do
    let head ← toAttribute value
    pure (head :: (← toAttributeList rest))

def toItem : ServiceItem → Except StoreError Item
  | [] => pure []
  | (name, value) :: rest => do
    let head ← toAttribute value
    pure ((name, head) :: (← toItem rest))

end

mutual

def toJson : ServiceValue → Json
  | string text => .map [("S", .string text)]
  | number text => .map [("N", .string text)]
  | boolean value => .map [("BOOL", .boolean value)]
  | null flag => .map [("NULL", .boolean flag)]
  | list elements => .map [("L", .list (toJsonList elements))]
  | map entries => .map [("M", .map (toJsonMap entries))]
  | stringSet texts => .map [("SS", .list (texts.map .string))]
  | numberSet texts => .map [("NS", .list (texts.map .string))]
  | binary bytes => .map [("B", base64 bytes)]
  | binarySet values => .map [("BS", .list (values.map base64))]
  | unknown => .null
where
  base64 (bytes : List UInt8) : Json := .string (String.ofList (Base64.encode bytes))

def toJsonList : List ServiceValue → List Json
  | [] => []
  | value :: rest => toJson value :: toJsonList rest

def toJsonMap : ServiceItem → Json.Map
  | [] => []
  | (name, value) :: rest => (name, toJson value) :: toJsonMap rest

end

def kindNames : List String := ["S", "N", "BOOL", "NULL", "L", "M", "SS", "NS", "B", "BS"]

/-- The name of a member that any value may have besides and that says nothing about it. -/
def typeName : String := "__type"

mutual

/-- The value that the JSON of a response writes: a map of which one member, named for a kind, says
something. -/
def ofJson? : Json → Option ServiceValue
  | .map members =>
    match readings members with
    | [value?] => value?
    | _ => none
  | _ => none

/-- What each member that says something is read as; a null member says nothing. -/
def readings : Json.Map → List (Option ServiceValue)
  | [] => []
  | (kind, json) :: rest =>
    if json.isNull || kind = typeName then readings rest else ofMember? kind json :: readings rest

/-- The value of a kind that the JSON of a member writes. A kind that we do not know is read as such,
whatever it holds. -/
def ofMember? (kind : String) : Json → Option ServiceValue
  | .string text =>
    match kind with
    | "S" => some (string text)
    | "N" => some (number text)
    | "B" => (bytes? text).map binary
    | kind => unknown? kind
  | .boolean value =>
    match kind with
    | "BOOL" => some (boolean value)
    | "NULL" => some (null value)
    | kind => unknown? kind
  | .list elements =>
    match kind with
    | "L" => (ofJsonList? elements).map list
    | "SS" => (elements.mapM Json.asString?).map stringSet
    | "NS" => (elements.mapM Json.asString?).map numberSet
    | "BS" => (elements.mapM fun (json : Json) => json.asString?.bind bytes?).map binarySet
    | kind => unknown? kind
  | .map entries =>
    match kind with
    | "M" => (ofJsonMap? entries).map map
    | kind => unknown? kind
  | .number _ | .null => unknown? kind
where
  bytes? (text : String) : Option (List UInt8) := (Base64.decode (Utf8.encode text)).toOption
  unknown? (kind : String) : Option ServiceValue := if kind ∈ kindNames then none else some unknown

def ofJsonList? : List Json → Option (List ServiceValue)
  | [] => some []
  | json :: rest => do
    let head ← ofJson? json
    pure (head :: (← ofJsonList? rest))

def ofJsonMap? : Json.Map → Option ServiceItem
  | [] => some []
  | (name, json) :: rest => do
    let head ← ofJson? json
    pure ((name, head) :: (← ofJsonMap? rest))

end

end ServiceValue

def ServiceItem.ofJson? (json : Json) : Option ServiceItem := json.asMap?.bind ServiceValue.ofJsonMap?

def Item.serviceJson (item : Item) : Json := .map (ServiceValue.toJsonMap (ServiceValue.ofItem item))

end KeyedRecords
