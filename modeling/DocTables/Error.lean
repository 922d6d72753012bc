/-!
# Errors

Everything that can go wrong, by cause. The wording of an error is in `Error.message` alone; errors
of a text or a medium that cannot be read have no wording of their own.
-/

namespace DocTables

/-- Why a table cannot be written as a statement. -/
inductive TableFault where
  | emptyName
  | noColumns
  /-- A key names a column that the table does not have. -/
  | unknownKeyColumn (column : String)
  /-- A text column is longer than the dialect allows. -/
  | charTooLong (length : UInt32)
  /-- A decimal column has more digits than the dialect allows. -/
  | decimalTooPrecise (places : UInt32)
  deriving DecidableEq, Repr

inductive Error where
  /-- An item of an unknown kind, below the sections in `path`. -/
  | unrecognizedKind (path name kind : String)
  | render (table : String) (fault : TableFault)
  /-- The tables that lie on a cycle of references or reach one. -/
  | dependencyCycle (tables : List String)
  /-- No schema of this name is registered. -/
  | infoNotFound (name : String)
  | infoExists (name : String)
  /-- The schema has no such revision. -/
  | revisionNotFound (name : String) (revision : Int32)
  /-- There is nothing to show or to change under this name. -/
  | nothingStored (name : String)
  /-- The settings give no engine, character set or collation. -/
  | blankTableOption
  /-- A file that cannot be read as text. -/
  | io
  | yaml
  | json
  /-- A registry that cannot be opened. -/
  | database
  deriving DecidableEq, Repr

/-- The longest text column, in characters. -/
def maxCharLength : UInt32 := 255

/-- The digits of a decimal column, and the display width of an integer column. -/
def numericWidth : UInt32 := 11

/-- The wording of a fault. -/
def TableFault.message : TableFault → String
  | emptyName => "table name is empty"
  | noColumns => "table has no columns"
  | unknownKeyColumn column => "key references unknown column '" ++ column ++ "'"
  | charTooLong length =>
    "char length " ++ toString length.toNat ++ " exceeds " ++ toString maxCharLength.toNat
  | decimalTooPrecise places =>
    "decimal precision " ++ toString places.toNat ++ " exceeds " ++ toString numericWidth.toNat ++
      " digits"

/-- The wording of an error, if it has one. -/
def Error.message : Error → Option String
  | unrecognizedKind path name kind =>
    some ("Unrecognized item kind '" ++ kind ++ "' for field '" ++ name ++ "' at path '" ++ path ++
      "'")
  | render table fault =>
    some ("Failed to render table '" ++ table ++ "': " ++ fault.message)
  | dependencyCycle tables =>
    some ("Dependency cycle between tables: " ++ String.intercalate ", " tables)
  | infoNotFound name => some ("Schema info not found: " ++ name)
  | infoExists name => some ("Schema info already exists: " ++ name)
  | revisionNotFound name revision =>
    some ("Schema not found: " ++ name ++ " (revision " ++ toString revision.toInt ++ ")")
  | nothingStored name => some ("Schema '" ++ name ++ "' not found")
  | blankTableOption =>
    some "Config error: mysql engine, charset and collation must not be empty"
  | io | yaml | json | database => none

end DocTables
