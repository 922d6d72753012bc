import DocTables.Data
import DocTables.Registry

/-!
# Tables and infos as data

What the commands print of tables and of registered schemas.
-/

namespace DocTables

/-- The data of a column type. A size stands beside the kind where there is one. -/
def ColumnType.toData : ColumnType → Data
  | integer => .map [("kind", .text "integer")]
  | fixedChar length => .map [("kind", .text "fixed_char"), ("size", .int length.toNat)]
  | text => .map [("kind", .text "text")]
  | boolean => .map [("kind", .text "boolean")]
  | decimal places => .map [("kind", .text "decimal"), ("size", .int places.toNat)]

def Column.toData (c : Column) : Data :=
  .map [("name", .text c.name), ("type", c.type.toData), ("nullable", .bool c.nullable)]

def ForeignKey.toData (k : ForeignKey) : Data :=
  .map [("column", .text k.column), ("referenced_table", .text k.table),
    ("referenced_column", .text k.target)]

/-- A list of texts. -/
def Data.texts (names : List String) : Data := .list (names.map .text)

def Table.toData (t : Table) : Data :=
  .map [("name", .text t.name), ("columns", .list (t.columns.map Column.toData)),
    ("primary_key", .texts t.primaryKey),
    ("foreign_keys", .list (t.foreignKeys.map ForeignKey.toData)),
    ("unique_keys", .list (t.uniqueKeys.map .texts))]

def Info.toData (i : Info) : Data :=
  .map [("id", .text i.id), ("name", .text i.name), ("description", .text i.description),
    ("is_active", .bool i.active), ("latest_revision", .ofOption (fun n => .int n.toInt) i.latest),
    ("has_draft", .bool i.hasDraft)]

end DocTables
