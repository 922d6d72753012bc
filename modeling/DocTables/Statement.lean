import DocTables.Error
import DocTables.Table

/-!
# Tables as SQL

A table is written as one statement of the MySQL dialect. `Table.fault?` finds what is wrong with a
table, and `Table.statement` writes it : the columns in order, then the primary key, the unique keys
and the foreign keys, each on a line of its own. Names are quoted, so they may hold any character.
-/

namespace DocTables

/-- The table options of the dialect. -/
structure Dialect where
  engine : String := "innodb"
  charset : String := "utf8mb4"
  collation : String := "utf8mb4_unicode_ci"
  deriving DecidableEq, Repr

/-! ## What can be wrong -/

/-- The size of a column is out of range. -/
def ColumnType.fault? : ColumnType → Option TableFault
  | fixedChar length => if maxCharLength < length then some (.charTooLong length) else none
  | decimal places => if numericWidth < places then some (.decimalTooPrecise places) else none
  | integer | text | boolean => none

/-- The first thing that is wrong with a table : its name, then its columns, its keys, and the sizes
of its columns. -/
def Table.fault? (t : Table) : Option TableFault :=
  if t.name.isEmpty then some .emptyName
  else if t.columns.isEmpty then some .noColumns
  else match t.keyColumns.find? fun name => (t.column? name).isNone with
    | some name => some (.unknownKeyColumn name)
    | none => t.columns.findSome? fun c => c.type.fault?

/-! ## Writing -/

/-- A name between backticks, with the backticks in it doubled. -/
def quoteName (name : String) : String :=
  let mark := '\x60'
  String.ofList (mark :: name.toList.flatMap (fun c => if c = mark then [mark, mark] else [c]) ++
    [mark])

/-- Quoted names with commas between them. -/
def quoteNames (names : List String) : String := String.intercalate ", " (names.map quoteName)

/-- The SQL name of a column type. -/
def ColumnType.sql (d : Dialect) : ColumnType → String
  | integer => "int(" ++ toString numericWidth.toNat ++ ")"
  | fixedChar length => "char(" ++ toString length.toNat ++ ") COLLATE " ++ d.collation
  | text => "text COLLATE " ++ d.collation
  | boolean => "tinyint(1)"
  | decimal places =>
    "decimal(" ++ toString numericWidth.toNat ++ "," ++ toString places.toNat ++ ")"

def Column.line (d : Dialect) (c : Column) : String :=
  quoteName c.name ++ " " ++ c.type.sql d ++ " " ++
    if c.nullable then "DEFAULT NULL" else "NOT NULL"

namespace Table

/-- The line of the primary key. There is none for a key of no columns. -/
def primaryKeyLines (t : Table) : List String :=
  if t.primaryKey.isEmpty then [] else ["PRIMARY KEY(" ++ quoteNames t.primaryKey ++ ")"]

/-- The line of a unique key, which is named by its columns. -/
def uniqueKeyLine (columns : List String) : String :=
  "UNIQUE KEY " ++ quoteName (String.intercalate "_" columns) ++ " (" ++ quoteNames columns ++ ")"

/-- The line of the foreign key in place `i`. -/
def foreignKeyLine (t : Table) (i : Nat) (key : ForeignKey) : String :=
  "CONSTRAINT " ++ quoteName (t.name ++ "_ibfk_" ++ toString (i + 1)) ++ " FOREIGN KEY (" ++
    quoteName key.column ++ ") REFERENCES " ++ quoteName key.table ++ " (" ++
    quoteName key.target ++ ")"

/-- The lines between the parentheses. -/
def lines (t : Table) (d : Dialect) : List String :=
  t.columns.map (Column.line d) ++ t.primaryKeyLines ++ t.uniqueKeys.map uniqueKeyLine ++
    t.foreignKeys.mapIdx t.foreignKeyLine

/-- The statement that creates the table. -/
def statement (t : Table) (d : Dialect) : String :=
  "CREATE TABLE " ++ quoteName t.name ++ "(\n" ++ String.intercalate ",\n" (t.lines d) ++
    "\n) ENGINE=" ++ d.engine ++ " DEFAULT CHARSET=" ++ d.charset ++ " COLLATE=" ++ d.collation ++
    ";"

/-- The statement that creates the table, if nothing is wrong with it. -/
def render (t : Table) (d : Dialect) : Except Error String :=
  match t.fault? with
  | some fault => .error (.render t.name fault)
  | none => .ok (t.statement d)

end Table

end DocTables
