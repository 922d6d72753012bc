import DocTables.Decomposition
import DocTables.EmissionOrder
import DocTables.Statement

/-!
# The script of a document type

`Compiler.compile` writes the tables of a document type as one script, every table after the tables
it refers to and a blank line after every statement. There is no script unless every table can be
written.
-/

namespace DocTables

/-- The script that creates the root and its descendants. -/
def script (d : Dialect) (root : Table) (children : List Table) : Except Error String := do
  let tables ← emissionOrder root children
  let statements ← tables.mapM (·.render d)
  return String.join (statements.map (· ++ "\n\n"))

/-- A choice of names and of table options. -/
structure Compiler where
  naming : Naming := .plain .raw
  dialect : Dialect := {}

namespace Compiler

/-- The tables of a document type. -/
def decompose (c : Compiler) (doc : Document) : Except Error Decomposition :=
  doc.decompose c.naming

/-- The script of a document type. -/
def compile (c : Compiler) (doc : Document) : Except Error String := do
  let d ← c.decompose doc
  script c.dialect d.root d.children

end Compiler

end DocTables
