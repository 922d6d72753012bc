import DocTables.Document
import DocTables.Error
import DocTables.Naming
import DocTables.Table

/-!
# From a document type to tables

A scalar that does not repeat is a column of the table that owns it. Every other item has a table of
its own, whose rows belong to rows of the owner : a repeated scalar has a table of values, a file a
table of file names and places, a section a table with its own scalars, whose items it then owns.

`decompose` gives the root table and the tables below it. A table stands after all the tables below
it, and the tables of two items stand in the order of the items.
-/

namespace DocTables

/-! ## Columns -/

/-- The column type that stores a scalar. -/
def ScalarType.columnType : ScalarType → ColumnType
  | integer => .integer
  | boolean => .boolean
  | string none => .text
  | string (some limit) => .fixedChar limit
  | decimal places => .decimal places

/-- The column of an item, if that is where it is stored. -/
def Item.column? (naming : Naming) : Item → Option Column
  | scalar type name flags =>
    if flags.repeated then none
    else some ⟨naming.column name, type.columnType, flags.optional⟩
  | _ => none

/-! ## Tables -/

namespace Table

/-- The table of a repeated scalar. -/
def ofValues (name owner : String) (type : ScalarType) (flags : Flags) : Table :=
  (childOf name owner).addColumn "value" type.columnType flags.optional

/-- An owner that may have only one row here has a unique key to say so. -/
def withArity (t : Table) (flags : Flags) : Table :=
  if flags.repeated then t else t.addUniqueKey [parentColumn.name]

/-- The table of a file. -/
def ofFile (name owner : String) (flags : Flags) : Table :=
  (((childOf name owner).addColumn "filename" (.fixedChar 200) false).addColumn "filepath" .text
    false).withArity flags

/-- A table with the columns of those items that are stored in it. -/
def withItems (t : Table) (naming : Naming) (items : List Item) : Table :=
  { t with columns := t.columns ++ items.filterMap (Item.column? naming) }

/-- The table of a section. -/
def ofSection (naming : Naming) (name owner : String) (flags : Flags) (items : List Item) : Table :=
  ((childOf name owner).withItems naming items).withArity flags

end Table

/-- The sections around an item. -/
structure Scope where
  /-- Their names as they stand in table names. -/
  path : String := ""
  /-- Their names as they are, with slashes between them. -/
  trail : String := ""

/-- The scope inside a section. -/
def Scope.enter (scope : Scope) (naming : Naming) (name : String) : Scope where
  path := Naming.joinPath scope.path (naming.pathSegment name)
  trail := if scope.trail.isEmpty then name else scope.trail ++ "/" ++ name

mutual

/-- The tables of an item that the table `owner` owns, its own table last. -/
def Item.tables (naming : Naming) (owner : String) (scope : Scope) : Item → Except Error (List Table)
  | .scalar type name flags =>
    if flags.repeated then
      .ok [.ofValues (naming.childTable owner scope.path name) owner type flags]
    else .ok []
  | .file name flags => .ok [.ofFile (naming.childTable owner scope.path name) owner flags]
  | .group name flags items => do
    let own := naming.childTable owner scope.path name
    let below ← tablesOfItems naming own (scope.enter naming name) items
    return below ++ [.ofSection naming own owner flags items]
  | .foreign kind name => .error (.unrecognizedKind scope.trail name kind)

/-- The tables of a list of items that the table `owner` owns, in order. -/
def tablesOfItems (naming : Naming) (owner : String) (scope : Scope) :
    List Item → Except Error (List Table)
  | [] => .ok []
  | item :: items => do
    let tables ← item.tables naming owner scope
    let rest ← tablesOfItems naming owner scope items
    return tables ++ rest

end

/-- The tables of a document type. -/
structure Decomposition where
  root : Table
  /-- The tables below the root, each after the tables below it. -/
  children : List Table
  deriving DecidableEq, Repr

/-- The root table, and then the others. -/
def Decomposition.tables (d : Decomposition) : List Table := d.root :: d.children

/-- The tables of a document type. It fails at the first item of an unknown kind. -/
def Document.decompose (doc : Document) (naming : Naming) : Except Error Decomposition := do
  let name := naming.rootTable doc.id doc.revision
  let children ← tablesOfItems naming name {} doc.items
  return ⟨(Table.keyed name).withItems naming doc.items, children⟩

end DocTables
