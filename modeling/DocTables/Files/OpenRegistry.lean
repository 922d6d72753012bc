import DocTables.Files
import DocTables.Registry.Location
import DocTables.Registry.Storage

/-!
# Registries in files

`OpenRegistry.load` opens the registry at a location, `OpenRegistry.save` keeps what it has become
and `OpenRegistry.close` ends the use of it. They are steps of `Work`, which may fail and even then
leaves the files that it has come to. So a file that is made for a registry stays, whatever happens
afterwards.

Two names beside a registry are reserved. They are its own name with an ending, for a journal and
for a log of changes, and there must be room for the ending of the journal. What has such a name has
been left over from something else, and is put out of the way unless the registry may only be read.
A directory cannot be put out of the way.
-/

namespace DocTables

/-- Work on files, which may fail and leaves the files that it has come to. -/
abbrev Work := ExceptT Error (StateM Files)

namespace Files

/-! ## Names beside a registry -/

/-- The ending of the name of a journal. -/
def journalEnding : Name := Bytes.ofText "-journal"

/-- The ending of the name of a log. -/
def logEnding : Name := Bytes.ofText "-wal"

/-- The ending of the name of the index of a log. -/
def indexEnding : Name := Bytes.ofText "-shm"

/-- The place whose name has an ending besides. -/
def beside (place : Place) (ending : Name) : Place :=
  place.dropLast ++ [(place.getLast?.getD []) ++ ending]

/-- The place of a registry, whose path must leave room for that of the journal. -/
def registryPlace? (files : Files) (path : Bytes) : Option Place := do
  let place ← files.target path
  if place.isEmpty || targetBound < (pathOf place ++ journalEnding).length then none
  else return place

/-! ## What is found -/

/-- The bytes of the file of a registry, which is made if it may be. -/
def openFile (place : Place) (access : Registry.Access) : Work ByteArray := do
  let files ← get
  match files.find? place with
  | some (.file bytes) => return bytes
  | some .directory => throw .database
  | none =>
    if access = .create ∧ files.isDirectory place.dropLast then
      set (files.put place (.file .empty))
      return .empty
    else throw .database

/-- Put a journal out of the way that has been left over. Beside a registry, one that begins with a
zero may stay until the registry is written. Beside a blank file, one that cannot be put out of the
way may stay until then. -/
def clearJournal (place : Place) (access : Registry.Access) (blank : Bool) : Work Unit := do
  let journal := beside place journalEnding
  match (← get).find? journal with
  | none => return
  | some .directory => if !blank then throw .database
  | some (.file bytes) =>
    if bytes.data[0]?.any fun b => blank || b ≠ 0 then
      if access ≠ .read then modify (·.remove journal)
      else if !blank then throw .database

/-- A log with something in it has been left over beside this place. -/
def hasLog (files : Files) (place : Place) : Bool :=
  match files.find? (beside place logEnding) with
  | some (.file bytes) => bytes.size ≠ 0
  | _ => false

/-- Put a log out of the way that has been left over beside a blank file. Beside a registry, it
stays as long as the registry is open. -/
def clearLog (place : Place) (blank : Bool) : Work Unit := do
  let files ← get
  let log := beside place logEnding
  if files.isDirectory log then throw .database
  if files.hasLog place then
    if blank then set (files.remove log)
    else if files.isDirectory (beside place indexEnding) then throw .database

end Files

/-! ## Open registries -/

/-- The file of a registry that is open. -/
structure RegistryFile where
  place : Files.Place
  /-- It is neither frozen nor only read. -/
  writable : Bool

/-- A registry that is open. It has no file if it is in memory. -/
structure OpenRegistry where
  registry : Registry
  file : Option RegistryFile

namespace RegistryFile

/-- Write a registry. No journal is left then. -/
def write (file : RegistryFile) (r : Registry) : Work Unit := do
  let files ← get
  let journal := Files.beside file.place Files.journalEnding
  if !file.writable || !journal.all Files.isName || files.isDirectory journal then
    throw .database
  set ((files.remove journal).put file.place (.file r.toBytes))

/-- End the use of a file. A log that has been left over goes with its index. -/
def close (file : RegistryFile) : Work Unit := do
  let files ← get
  if file.writable && files.hasLog file.place then
    set ((files.remove (Files.beside file.place Files.logEnding)).remove
      (Files.beside file.place Files.indexEnding))

/-- Open a registry. A blank file becomes the empty registry. -/
def load (path : Bytes) (access : Registry.Access) (frozen : Bool) : Work OpenRegistry := do
  match (← get).registryPlace? path with
  | none => throw .database
  | some place =>
    let file : RegistryFile := { place, writable := access ≠ .read && !frozen }
    let bytes ← Files.openFile place access
    let blank := Registry.isBlank bytes
    if !frozen then
      Files.clearJournal place access blank
      Files.clearLog place blank
    if blank then
      file.write .empty
      return { registry := .empty, file }
    else
      match Registry.ofBytes? bytes with
      | some registry => return { registry, file }
      | none =>
        file.close
        throw .database

end RegistryFile

namespace OpenRegistry

/-- Open the registry at a location. -/
def load : Registry.Location → Work OpenRegistry
  | .memory => return { registry := .empty, file := none }
  | .file path access frozen => RegistryFile.load path access frozen

/-- Keep what a registry has become. -/
def save (r : OpenRegistry) (registry : Registry) : Work Unit := do
  if let some file := r.file then file.write registry

/-- End the use of a registry. -/
def close (r : OpenRegistry) : Work Unit := do
  if let some file := r.file then file.close

end OpenRegistry

end DocTables
