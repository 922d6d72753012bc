import DocTables.Json.Printer
import DocTables.Json.Source
import DocTables.Registry

/-!
# Registries as bytes

A registry is kept in a file as a signature and a JSON text. A file of one byte at most is blank,
and holds the empty registry. The signature makes sure that no other file is taken for a registry,
and that no registry is read as a text.
-/

namespace DocTables

/-! ## Writing -/

def Registration.toData (n : Registration) : Data :=
  .map [("id", .text n.id), ("name", .text n.name), ("description", .text n.description),
    ("active", .bool n.active)]

def Definition.toData (d : Definition) : Data :=
  .map [("name", .text d.name), ("revision", .int d.revision.toInt), ("text", .text d.text),
    ("remark", .text d.remark)]

def Published.toData (p : Published) : Data :=
  .map [("name", .text p.name), ("revision", .int p.revision.toInt), ("script", .text p.script)]

namespace Registry

def toData (r : Registry) : Data :=
  .map [("registrations", .list (r.registrations.map Registration.toData)),
    ("definitions", .list (r.definitions.map Definition.toData)),
    ("scripts", .list (r.scripts.map Published.toData))]

/-- What a file with a registry begins with. No text in UTF-8 begins with its first byte. -/
def signature : ByteArray := ⟨#[0x89, 0x44, 0x54, 0x52, 0x0A]⟩

/-- The bytes of a registry. -/
def toBytes (r : Registry) : ByteArray := signature ++ (Json.compact r.toData).toUTF8

end Registry

/-! ## Reading -/

namespace Registry

open Json

/-- The fields of a map. -/
def fieldsOf (x : Json) : Option (List (String × Json)) := (source.fields [] x).join

/-- The items of a list, read one by one. -/
def listOf {α : Type} (read : Json → Option α) (x : Json) : Option (List α) :=
  (source.list x).join.bind fun items => items.mapM read

def readRegistration? (x : Json) : Option Registration := do
  let fields ← fieldsOf x
  let id ← source.required fields "id" source.text
  let name ← source.required fields "name" source.text
  let description ← source.required fields "description" source.text
  let active ← source.required fields "active" source.bool
  return { id, name, description, active }

def readDefinition? (x : Json) : Option Definition := do
  let fields ← fieldsOf x
  let name ← source.required fields "name" source.text
  let revision ← source.required fields "revision" source.int32
  let text ← source.required fields "text" source.text
  let remark ← source.required fields "remark" source.text
  return { name, revision, text, remark }

def readPublished? (x : Json) : Option Published := do
  let fields ← fieldsOf x
  let name ← source.required fields "name" source.text
  let revision ← source.required fields "revision" source.int32
  let script ← source.required fields "script" source.text
  return { name, revision, script }

/-- Read a registry off a JSON tree. -/
def read? (x : Json) : Option Registry := do
  let fields ← fieldsOf x
  let registrations ← source.required fields "registrations" (listOf readRegistration?)
  let definitions ← source.required fields "definitions" (listOf readDefinition?)
  let scripts ← source.required fields "scripts" (listOf readPublished?)
  return { registrations, definitions, scripts }

/-- No registry has been written to a file with these bytes. -/
def isBlank (bytes : ByteArray) : Bool := bytes.size ≤ 1

/-- The registry that a file with these bytes holds. -/
def ofBytes? (bytes : ByteArray) : Option Registry :=
  if isBlank bytes then some empty
  else if (bytes.extract 0 signature.size).data = signature.data then do
    let text ← String.fromUTF8? (bytes.extract signature.size bytes.size)
    read? (← parse? text)
  else none

/-- What becomes of a registry when its file is closed and opened again. -/
def reload (r : Registry) : Except Error Registry :=
  match ofBytes? r.toBytes with
  | some r => .ok r
  | none => .error .database

end Registry

end DocTables
