import DocTables.Sha256

/-!
# Names of tables and columns

A `Naming` turns places in a document type into names. Nothing else in the library looks inside
one, so any four functions will do. `Naming.plain` joins the names of the items with underscores;
`Naming.shortened` cuts the long names of another naming down to a limit, with part of a digest in
place of what was cut, so that names stay apart.
-/

namespace DocTables

/-- Put `y` in place of every `x`. -/
def replaceChar (x y : Char) (s : String) : String := s.map fun c => if c = x then y else c

/-- The names of tables and columns. -/
structure Naming where
  /-- The table of the document itself, from its id and revision. -/
  rootTable : String → Int32 → String
  /-- The table of an item, from the name of the table that owns it, the joined path of the
  sections around it and its own name. -/
  childTable : String → String → String → String
  /-- The name of a section as it stands in a path. -/
  pathSegment : String → String
  /-- The column of an item. -/
  column : String → String

namespace Naming

/-- How the name of an item becomes the name of a column. -/
inductive ColumnStyle where
  /-- As it is. -/
  | raw
  /-- With underscores for spaces. -/
  | underscore
  deriving DecidableEq, Repr

/-- Add a segment to a path. -/
def joinPath (path segment : String) : String :=
  if path.isEmpty then segment else path ++ "_" ++ segment

/-- A name in a path has hyphens for spaces. -/
def hyphenated (name : String) : String := replaceChar ' ' '-' name

/-- The column name in a style. -/
def ColumnStyle.apply : ColumnStyle → String → String
  | raw, name => name
  | underscore, name => replaceChar ' ' '_' name

/-- Names joined with underscores. The root table is named by the id and the revision, every other
table by its owner, the path and its own name. -/
def plain (style : ColumnStyle) : Naming where
  rootTable id revision := "data_" ++ id ++ "_r" ++ toString revision.toInt
  childTable owner path name :=
    if path.isEmpty then owner ++ "_" ++ hyphenated name
    else owner ++ "_" ++ path ++ "_" ++ hyphenated name
  pathSegment := hyphenated
  column := style.apply

/-! ## Shortened names -/

/-- The digits of a digest that a shortened name carries. -/
def digestLength : Nat := 16

/-- What a shortened name ends in : an underscore and the digits. -/
def suffixLength : Nat := digestLength + 1

/-- The limit that is kept to. A shortened name has room for its suffix and one character more. -/
def effectiveLimit (limit : Nat) : Nat := max limit (suffixLength + 1)

/-- A name longer than the limit becomes as many of its first characters as fit, an underscore, and
the first digits of its SHA-256 digest. -/
def shorten (limit : Nat) (name : String) : String :=
  let limit := effectiveLimit limit
  if name.length ≤ limit then name
  else
    String.ofList (name.toList.take (limit - suffixLength) ++
      '_' :: (Sha256.hexDigest name).take digestLength)

/-- Another naming with its table and column names shortened. Paths are left alone. -/
def shortened (inner : Naming) (limit : Nat) : Naming where
  rootTable id revision := shorten limit (inner.rootTable id revision)
  childTable owner path name := shorten limit (inner.childTable owner path name)
  pathSegment := inner.pathSegment
  column name := shorten limit (inner.column name)

end Naming

end DocTables
