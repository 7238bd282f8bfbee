import KeyedRecords.Attribute
import KeyedRecords.Text.Split

/-! The part of an item at some dotted paths. -/

namespace KeyedRecords

/-- The target with the value that the source has at a path, if it has one. Maps on the way are kept. -/
def copyPath (source target : Item) : List String → Item
  | [] => target
  | [name] =>
    match Assoc.find? source name with
    | some value => Assoc.insert target name value
    | none => target
  | name :: rest =>
    match Assoc.find? source name, Assoc.find? target name with
    | some (.map inner), none => Assoc.insert target name (.map (copyPath inner [] rest))
    | some (.map inner), some (.map out) => Assoc.insert target name (.map (copyPath inner out rest))
    | _, _ => target

/-- The part of an item at dotted paths. -/
def project (item : Item) (paths : List String) : Item :=
  paths.foldl (fun out path => copyPath item out (Text.dotted path)) []

end KeyedRecords
