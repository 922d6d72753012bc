import DocTables.Json.Reader
import DocTables.Source

/-!
# The answers of a JSON tree

Types must match : a string is no number and a number no string. A record may be written as a map,
or as a list of its values in the order of its keys, with values missing at the end. No value is
blank.
-/

namespace DocTables

namespace Json

/-- The questions that a JSON tree answers. -/
def source : Source Option Json where
  reject := none
  text
    | .text s => s
    | _ => none
  bool
    | .bool b => some b
    | _ => none
  int32
    | .integer i => Digits.int32? i
    | _ => none
  natBelow bound
    | .integer i => if 0 ≤ i ∧ i < bound then some i.toNat else none
    | _ => none
  nullable
    | .null => some none
    | x => some (some x)
  list
    | .list items => some (some items)
    | _ => none
  fields keys
    | .map fields => some <$> fields.mapM fun (name, value) => name.map (·, value)
    | .list values => if values.length ≤ keys.length then some (some (keys.zip values)) else none
    | _ => none

/-- The levels of maps and lists that a document type may have in JSON. -/
def maxDepth : Nat := 127

end Json

end DocTables
