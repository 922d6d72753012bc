import DocTables.Document.Entry
import DocTables.Error
import DocTables.Json.Printer
import DocTables.Json.Source

/-!
# Document types in JSON
-/

namespace DocTables.Document

/-- Write a document type as a JSON text. -/
def toJson (doc : Document) : String := Json.compact doc.toData

/-- Read a document type from a JSON text. -/
def ofJson (s : String) : Except Error Document :=
  match (Json.parse? s).bind (read Json.source (Json.maxDepth - 1)) with
  | some doc => .ok doc
  | none => .error .json

end DocTables.Document
