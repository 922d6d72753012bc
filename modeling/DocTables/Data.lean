/-!
# Structured data

What the library writes, before it is written in any notation : the common ground of JSON and YAML.
The fields of a map have an order.
-/

namespace DocTables

/-- A piece of structured data. -/
inductive Data where
  | null
  | bool (b : Bool)
  | int (i : Int)
  | text (s : String)
  | list (items : List Data)
  | map (fields : List (String × Data))
  deriving Repr, Inhabited

namespace Data

/-- Text, or null. -/
def ofOption {α : Type} (f : α → Data) : Option α → Data
  | none => null
  | some a => f a

/-- Put a field in its place among fields that are sorted by name. -/
def insertField (field : String × Data) : List (String × Data) → List (String × Data)
  | [] => [field]
  | other :: fields =>
    if field.1 ≤ other.1 then field :: other :: fields else other :: insertField field fields

mutual

/-- The same data with the fields of every map sorted by name. -/
def sorted : Data → Data
  | list items => list (sortedItems items)
  | map fields => map (sortedFields fields)
  | null => null
  | bool b => bool b
  | int i => int i
  | text s => text s

/-- `sorted` on every item. -/
def sortedItems : List Data → List Data
  | [] => []
  | item :: items => item.sorted :: sortedItems items

/-- `sorted` on every value, with the fields in order. -/
def sortedFields : List (String × Data) → List (String × Data)
  | [] => []
  | (name, value) :: fields => insertField (name, value.sorted) (sortedFields fields)

end

end Data

end DocTables
