import DocTables.Data
import DocTables.Document
import DocTables.Source

/-!
# Document types in texts

In a text every item is a flat record, whatever its kind : `Item.Entry`. An item is written with the
fields that its kind uses, and those that have their usual value are left out. It is read with all
fields, and those that its kind does not use must be right too before they are dropped.

`Document.toData` gives the data to be written, and `Document.read` reads a document type off a tree
of any notation. A notation has a limit on how deep maps and lists may be nested; a field that is not
read may hold anything.
-/

namespace DocTables

/-- An item as it stands in a text. -/
structure Item.Entry where
  kind : String
  name : String
  optional : Bool := false
  repeated : Bool := false
  lengthLimit : Option UInt32 := none
  precision : Option UInt32 := none
  items : List Item := []

/-! ## Writing -/

namespace Item

/-- A field that is left out unless it is true. -/
def flagField (name : String) (b : Bool) : List (String × Data) :=
  if b then [(name, .bool true)] else []

/-- A field that is left out unless it has a value. -/
def sizeField (name : String) : Option UInt32 → List (String × Data)
  | none => []
  | some n => [(name, .int n.toNat)]

/-- The fields that all kinds but the foreign ones have. -/
def headFields (kind name : String) (flags : Flags) : List (String × Data) :=
  ("type", .text kind) :: ("name", .text name) ::
    (flagField "optional" flags.optional ++ flagField "array" flags.repeated)

mutual

/-- The data of an item. -/
def toData : Item → Data
  | .scalar type name flags =>
    .map (headFields (scalar type name flags).kind name flags ++
      match type with
      | .string limit => sizeField "length_limit" limit
      | .decimal places => sizeField "precision" (some places)
      | .integer | .boolean => [])
  | .file name flags => .map (headFields Kind.file.text name flags)
  | .group name flags items =>
    .map (headFields Kind.group.text name flags ++
      match items with
      | [] => []
      | item :: items => [("items", .list (item.toData :: listData items))])
  | .foreign kind name => .map [("type", .text kind), ("name", .text name)]

/-- The data of every item. -/
def listData : List Item → List Data
  | [] => []
  | item :: items => item.toData :: listData items

end

end Item

/-- The data of a document type. -/
def Document.toData (doc : Document) : Data :=
  .map [("id", .text doc.id), ("revision", .int doc.revision.toInt), ("name", .text doc.name),
    ("items", .list (Item.listData doc.items))]

/-! ## Reading -/

namespace Item

/-- The item that an entry stands for. A kind that is not known is kept as it is written. -/
def Entry.toItem (e : Entry) : Item :=
  let flags : Flags := ⟨e.optional, e.repeated⟩
  match Kind.ofText? e.kind with
  | some .integer => .scalar .integer e.name flags
  | some .boolean => .scalar .boolean e.name flags
  | some .string => .scalar (.string e.lengthLimit) e.name flags
  | some .decimal => .scalar (.decimal (e.precision.getD 0)) e.name flags
  | some .file => .file e.name flags
  | some .group => .group e.name flags e.items
  | none => .foreign e.kind e.name

/-- The fields of an item, in the order in which they are written. -/
def keys : List String :=
  ["type", "name", "optional", "array", "length_limit", "precision", "items"]

variable {m : Type → Type} [Monad m] {α : Type}

/-- Read an item off its fields. `nested` reads a list of items. -/
def ofFields (src : Source m α) (nested : α → m (List Item)) (fields : List (String × α)) :
    m Item := do
  let kind ← src.required fields "type" src.text
  let name ← src.required fields "name" src.text
  let optional ← src.fieldD fields "optional" src.bool false
  let repeated ← src.fieldD fields "array" src.bool false
  let lengthLimit ← src.fieldD fields "length_limit" (src.optional src.uint32) none
  let precision ← src.fieldD fields "precision" (src.optional src.uint32) none
  let items ← src.fieldD fields "items" nested []
  return Entry.toItem { kind, name, optional, repeated, lengthLimit, precision, items }

mutual

/-- Read an item that holds at most `depth` levels of maps and lists. -/
def read (src : Source m α) : (depth : Nat) → α → m Item
  | 0, _ => src.reject
  | depth + 1, x => do
    match ← src.fields keys x with
    | some fields => ofFields src (readList src depth) fields
    | none => src.reject

/-- Read a list of items that holds at most `depth` levels of maps and lists. A list that is left
blank has no level. -/
def readList (src : Source m α) : (depth : Nat) → α → m (List Item)
  | 0, x => do
    match ← src.list x with
    | some _ => src.reject
    | none => return []
  | depth + 1, x => do
    match ← src.list x with
    | some items => items.mapM (read src depth)
    | none => return []

end

end Item

namespace Document

/-- The fields of a document type, in the order in which they are written. -/
def keys : List String := ["id", "revision", "name", "items"]

/-- Read a document type off a tree that holds at most `depth + 1` levels of maps and lists. -/
def read {m : Type → Type} [Monad m] {α : Type} (src : Source m α) (depth : Nat) (x : α) :
    m Document := do
  match ← src.fields keys x with
  | some fields =>
    let id ← src.fieldD fields "id" src.text ""
    let revision ← src.fieldD fields "revision" src.int32 0
    let name ← src.required fields "name" src.text
    let items ← src.fieldD fields "items" (Item.readList src depth) []
    return { id, revision, name, items }
  | none => src.reject

end Document

end DocTables
