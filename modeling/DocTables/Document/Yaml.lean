import DocTables.Document.Entry
import DocTables.Error
import DocTables.Yaml.Printer
import DocTables.Yaml.Source

/-!
# Document types in YAML
-/

namespace DocTables.Document

/-- Write a document type as a YAML text. -/
def toYaml (doc : Document) : String := Yaml.render doc.toData

/-- Read a document type from a YAML text. -/
def ofYaml (s : String) : Except Error Document :=
  match Yaml.read? s fun t => read (Yaml.source t) (Yaml.maxDepth - 1) with
  | some doc => .ok doc
  | none => .error .yaml

end DocTables.Document
