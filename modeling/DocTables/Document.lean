/-!
# Document types

A *document type* describes one kind of business document as a tree of named items: values, uploaded
files, and sections that hold further items. `Document` is the whole tree and `Item` one node of it.

The set of item kinds is closed. An item of any other kind is kept as `Item.foreign`, so that a
document type can be stored and shown before every kind in it is supported; only turning it into
tables fails.
-/

namespace DocTables

/-! ## Kinds -/

/-- The kinds of item that have a place in the tables. -/
inductive Kind where
  | integer
  | boolean
  | string
  | decimal
  | file
  | group
  deriving DecidableEq, Repr

namespace Kind

/-- The name a kind is written with. -/
def text : Kind → String
  | integer => "integer"
  | boolean => "boolean"
  | string => "string"
  | decimal => "decimal"
  | file => "file"
  | group => "section"

/-- Every spelling of a kind, in lower case. -/
def spellings : List (String × Kind) :=
  [("integer", integer), ("int", integer), ("boolean", boolean), ("bool", boolean),
   ("string", string), ("str", string), ("decimal", decimal), ("file", file),
   ("section", group)]

/-- The kind that `s` spells. Upper and lower case of the letters A to Z are the same. -/
def ofText? (s : String) : Option Kind :=
  spellings.lookup (String.ofList (s.toList.map Char.toLower))

end Kind

/-! ## Items -/

/-- Whether an item may be left empty, and whether it may occur more than once. -/
structure Flags where
  optional : Bool := false
  repeated : Bool := false
  deriving DecidableEq, Repr, Inhabited

/-- What a single value is. -/
inductive ScalarType where
  /-- A whole number. -/
  | integer
  /-- Yes or no. -/
  | boolean
  /-- Text, of a fixed length if there is a limit. -/
  | string (limit : Option UInt32)
  /-- A number with `places` digits after the decimal point. -/
  | decimal (places : UInt32)
  deriving DecidableEq, Repr

/-- One node of a document type. -/
inductive Item where
  /-- A value, or a list of values if it is repeated. -/
  | scalar (type : ScalarType) (name : String) (flags : Flags)
  /-- An uploaded file. -/
  | file (name : String) (flags : Flags)
  /-- A section: a named group of items. -/
  | group (name : String) (flags : Flags) (items : List Item)
  /-- An item whose kind is not one of `Kind`. -/
  | foreign (kind name : String)
  deriving Repr

namespace Item

mutual

/-- Equality of items is decided node by node. -/
def decEq : (a b : Item) → Decidable (a = b)
  | scalar t n f, scalar t' n' f' =>
    decidable_of_iff (t = t' ∧ n = n' ∧ f = f') (by simp)
  | file n f, file n' f' => decidable_of_iff (n = n' ∧ f = f') (by simp)
  | group n f xs, group n' f' xs' =>
    have := decEqList xs xs'
    decidable_of_iff (n = n' ∧ f = f' ∧ xs = xs') (by simp)
  | foreign k n, foreign k' n' => decidable_of_iff (k = k' ∧ n = n') (by simp)
  | scalar .., file .. | scalar .., group .. | scalar .., foreign ..
  | file .., scalar .. | file .., group .. | file .., foreign ..
  | group .., scalar .. | group .., file .. | group .., foreign ..
  | foreign .., scalar .. | foreign .., file .. | foreign .., group .. =>
    isFalse (by simp)

/-- Equality of lists of items is decided item by item. -/
def decEqList : (xs ys : List Item) → Decidable (xs = ys)
  | [], [] => isTrue rfl
  | x :: xs, y :: ys =>
    have := decEq x y
    have := decEqList xs ys
    decidable_of_iff (x = y ∧ xs = ys) (by simp)
  | [], _ :: _ | _ :: _, [] => isFalse (by simp)

end

instance : DecidableEq Item := decEq

/-- The name of the item. -/
def name : Item → String
  | scalar _ name _ | file name _ | group name _ _ | foreign _ name => name

/-- The text that names the item's kind. -/
def kind : Item → String
  | scalar .integer _ _ => Kind.integer.text
  | scalar .boolean _ _ => Kind.boolean.text
  | scalar (.string _) _ _ => Kind.string.text
  | scalar (.decimal _) _ _ => Kind.decimal.text
  | file _ _ => Kind.file.text
  | group _ _ _ => Kind.group.text
  | foreign kind _ => kind

/-! ### Building items -/

/-- A required integer. -/
def integer (name : String) : Item := scalar .integer name {}

/-- A required boolean. -/
def boolean (name : String) : Item := scalar .boolean name {}

/-- A required text of any length. -/
def string (name : String) : Item := scalar (.string none) name {}

/-- A required text of a fixed length. -/
def fixedString (name : String) (limit : UInt32) : Item := scalar (.string (some limit)) name {}

/-- A required decimal number. -/
def decimal (name : String) (places : UInt32) : Item := scalar (.decimal places) name {}

/-- A required file. -/
def upload (name : String) : Item := file name {}

/-- A required section. -/
def ofItems (name : String) (items : List Item) : Item := group name {} items

/-- Change the flags. A foreign item has none. -/
def mapFlags (f : Flags → Flags) : Item → Item
  | scalar type name flags => scalar type name (f flags)
  | file name flags => file name (f flags)
  | group name flags items => group name (f flags) items
  | foreign kind name => foreign kind name

/-- The item, occurring any number of times. -/
def asRepeated : Item → Item := mapFlags ({ · with repeated := true })

/-- The item, allowed to be empty. -/
def asOptional : Item → Item := mapFlags ({ · with optional := true })

end Item

/-! ## Documents -/

/-- A document type. -/
structure Document where
  /-- Names the tables of the document type, and stays the same over its revisions. -/
  id : String := ""
  revision : Int32 := 0
  name : String
  items : List Item := []
  deriving DecidableEq, Repr

end DocTables
