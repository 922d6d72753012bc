/-!
# Tables

A table before it is written in any dialect of SQL : named columns of logical types, and keys that
name columns. Nothing here asks that a key names a column of the table; writing a table checks it.
-/

namespace DocTables

/-- What a column holds. -/
inductive ColumnType where
  | integer
  /-- Text of a fixed length. -/
  | fixedChar (length : UInt32)
  | text
  | boolean
  /-- A number with `places` digits after the decimal point. -/
  | decimal (places : UInt32)
  deriving DecidableEq, Repr

structure Column where
  name : String
  type : ColumnType
  nullable : Bool
  deriving DecidableEq, Repr

/-- The values of `column` are values of the column `target` of `table`. -/
structure ForeignKey where
  column : String
  table : String
  target : String
  deriving DecidableEq, Repr

structure Table where
  name : String
  columns : List Column := []
  primaryKey : List String := []
  foreignKeys : List ForeignKey := []
  uniqueKeys : List (List String) := []
  deriving DecidableEq, Repr

namespace Table

/-! ## Standard columns -/

/-- The column that identifies a row. -/
def idColumn : Column := ⟨"id", .fixedChar 36, false⟩

/-- The column that holds the id of the row that owns this one. -/
def parentColumn : Column := ⟨"parent_id", .fixedChar 36, false⟩

/-! ## Building tables -/

/-- Add a column after the others. -/
def addColumn (t : Table) (name : String) (type : ColumnType) (nullable : Bool) : Table :=
  { t with columns := t.columns ++ [⟨name, type, nullable⟩] }

/-- Put a primary key in place of the one there is. -/
def setPrimaryKey (t : Table) (columns : List String) : Table :=
  { t with primaryKey := columns }

def addForeignKey (t : Table) (column table target : String) : Table :=
  { t with foreignKeys := t.foreignKeys ++ [⟨column, table, target⟩] }

def addUniqueKey (t : Table) (columns : List String) : Table :=
  { t with uniqueKeys := t.uniqueKeys ++ [columns] }

/-- A table whose rows have an id. -/
def keyed (name : String) : Table where
  name
  columns := [idColumn]
  primaryKey := [idColumn.name]

/-- A table whose rows have an id and belong to rows of the table `parent`. -/
def childOf (name parent : String) : Table where
  name
  columns := [idColumn, parentColumn]
  primaryKey := [idColumn.name]
  foreignKeys := [⟨parentColumn.name, parent, idColumn.name⟩]

/-! ## Questions -/

/-- The first column of that name. -/
def column? (t : Table) (name : String) : Option Column := t.columns.find? (·.name == name)

def columnNames (t : Table) : List String := t.columns.map Column.name

/-- The names of the tables that the foreign keys lead to. -/
def references (t : Table) : List String := t.foreignKeys.map ForeignKey.table

/-- The names of the columns in the keys : primary, then unique, then foreign. -/
def keyColumns (t : Table) : List String :=
  t.primaryKey ++ t.uniqueKeys.flatten ++ t.foreignKeys.map ForeignKey.column

end Table

end DocTables
