import DocTables.Compiler
import DocTables.Yaml.Source

/-!
# Settings

The choices of a compiler, as they are read from a YAML text. Every setting has a default, and a text
of blanks alone stands for the defaults.
-/

namespace DocTables

structure Settings where
  columns : Naming.ColumnStyle := .raw
  /-- The length above which names are shortened. -/
  maxNameLength : Option Nat := none
  dialect : Dialect := {}
  deriving DecidableEq, Repr

namespace Settings

/-! ## Blank texts -/

/-- The ranges of the blank characters of Unicode. -/
def blankRanges : List (Nat × Nat) :=
  [(0x09, 0x0D), (0x20, 0x20), (0x85, 0x85), (0xA0, 0xA0), (0x1680, 0x1680), (0x2000, 0x200A),
   (0x2028, 0x2029), (0x202F, 0x202F), (0x205F, 0x205F), (0x3000, 0x3000)]

/-- A blank character. -/
def isBlankChar (c : Char) : Bool := blankRanges.any fun (a, b) => a ≤ c.toNat && c.toNat ≤ b

/-- A text of blanks alone. -/
def isBlankText (s : String) : Bool := s.toList.all isBlankChar

/-! ## Reading -/

/-- The column style with this name. -/
def columnStyle? : String → Option Naming.ColumnStyle
  | "raw" => some .raw
  | "underscore" => some .underscore
  | _ => none

/-- The name of a column style. -/
def columnStyleName : Naming.ColumnStyle → String
  | .raw => "raw"
  | .underscore => "underscore"

section

open Yaml

variable (t : Tree)

/-- The fields of a record, of which there are none if it is left blank. -/
def fieldsOf (x : Node) : Answer (List (String × Node)) := do
  return (← (source t).fields [] x).getD []

/-- Read the settings of names. -/
def readNaming (x : Node) : Answer (Naming.ColumnStyle × Option Nat) := do
  let fields ← fieldsOf t x
  let columns ← (source t).fieldD fields "columns"
    (fun x => do answer (columnStyle? (← choice t x))) .raw
  let limit ← (source t).fieldD fields "max_identifier_len"
    ((source t).optional ((source t).natBelow UInt64.size)) none
  return (columns, limit)

/-- Read the table options. -/
def readDialect (x : Node) : Answer Dialect := do
  let fields ← fieldsOf t x
  let defaults : Dialect := {}
  let engine ← (source t).fieldD fields "engine" (text t) defaults.engine
  let charset ← (source t).fieldD fields "charset" (text t) defaults.charset
  let collation ← (source t).fieldD fields "collation" (text t) defaults.collation
  return { engine, charset, collation }

/-- Read settings off a tree. -/
def read (x : Node) : Answer Settings := do
  let fields ← fieldsOf t x
  let (columns, maxNameLength) ← (source t).fieldD fields "naming" (readNaming t) (.raw, none)
  let dialect ← (source t).fieldD fields "mysql" (readDialect t) {}
  return { columns, maxNameLength, dialect }

end

/-- Every table option has a value. -/
def isComplete (s : Settings) : Bool :=
  !s.dialect.engine.isEmpty && !s.dialect.charset.isEmpty && !s.dialect.collation.isEmpty

/-- Read settings from a YAML text. -/
def ofYaml (s : String) : Except Error Settings :=
  if isBlankText s then .ok {}
  else
    match Yaml.read? s read with
    | some settings => if settings.isComplete then .ok settings else .error .blankTableOption
    | none => .error .yaml

/-- The naming that the settings choose. -/
def naming (s : Settings) : Naming :=
  match s.maxNameLength with
  | some limit => (Naming.plain s.columns).shortened limit
  | none => .plain s.columns

/-- The compiler that the settings choose. -/
def compiler (s : Settings) : Compiler := { naming := s.naming, dialect := s.dialect }

end Settings

end DocTables
