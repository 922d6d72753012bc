import DocTables.Document.Json
import DocTables.Document.Yaml
import DocTables.Files
import DocTables.Settings

/-!
# What files hold

Document types and settings, read from files.
-/

namespace DocTables

/-- The extension of the files that hold JSON. -/
def jsonExtension : String := "json"

/-- The bytes are those of a text in ASCII, in upper or lower case. -/
def Bytes.isSpelled (bytes : Bytes) (text : String) : Bool :=
  bytes.map (fun b => (Char.ofUInt8 b).toLower) == text.toList

/-- A document type in the notation that the extension of its file says : JSON, in upper or lower
case, or else YAML. -/
def Document.ofFileText (path text : String) : Except Error Document :=
  if (Files.extension? (Bytes.ofText path)).any (·.isSpelled jsonExtension) then ofJson text
  else ofYaml text

namespace Files

variable (files : Files)

/-- Read the text of a file. -/
def readText (path : String) : Except Error String :=
  match files.text? (Bytes.ofText path) with
  | some text => .ok text
  | none => .error .io

/-- Read a document type from a file. -/
def readDocument (path : String) : Except Error Document := do
  Document.ofFileText path (← files.readText path)

/-- Read settings from a file. -/
def readSettings (path : String) : Except Error Settings := do
  Settings.ofYaml (← files.readText path)

end Files

end DocTables
