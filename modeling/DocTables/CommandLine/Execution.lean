import DocTables.CommandLine
import DocTables.Files.Contents
import DocTables.Files.OpenRegistry
import DocTables.Json.Printer
import DocTables.Listing
import DocTables.Yaml.Printer

/-!
# Carrying out commands

`Invocation.run` carries out a command on a tree of files, and gives what it prints and the files
that come of it. The settings are read first, and a registry is opened before anything else that the
command needs. What the command does to the registry is kept only if the command succeeds.
-/

namespace DocTables

/-- The text of structured data, with the fields of every map in the order of their names. -/
def Format.print (format : Format) (d : Data) : String :=
  match format with
  | yaml => Yaml.render d.sorted
  | json => Json.pretty d.sorted ++ "\n"

/-! ## Commands on a registry -/

/-- What has been stored. -/
def stored (name : String) (what : String × Data) : Data :=
  .map [("ok", .bool true), ("name", .text name), what]

namespace RegistryCommand

variable (text : DefinitionText) (newId : String) (compiler : Compiler) (format : Format)
  (files : Files)

/-- Carry out a command on a registry. A name that is registered gets the new id. -/
def run (r : Registry) : RegistryCommand → Except Error (String × Registry)
  | addInfo name description => do
    let (info, r) ← r.addInfo newId name description
    return (format.print info.toData, r)
  | updateInfo name description active =>
    match r.info? name with
    | none => .error (.nothingStored name)
    | some info => do
      let (info, r) ←
        r.updateInfo name (description.getD info.description) (active.getD info.active)
      return (format.print info.toData, r)
  | infos => .ok (format.print (.list (r.infos.map Info.toData)), r)
  | addSchema path remark => do
    let doc ← files.readDocument path
    let (revision, r) ← r.addSchema text doc remark
    return (format.print (stored doc.name ("revision", .int revision.toInt)), r)
  | saveDraft path remark => do
    let doc ← files.readDocument path
    let r ← r.saveDraft text doc remark
    return (format.print (stored doc.name ("draft", .bool true)), r)
  | document name revision => do
    let doc ← match revision with
      | some revision => r.documentAt text name revision
      | none => r.document text name
    print name doc r
  | draft name => do print name (← r.draft text name) r
  | publish name => do
    let (published, r) ← r.publish text name compiler
    return (published.script, r)
where
  /-- Print a document. -/
  print (name : String) (doc : Option Document) (r : Registry) :
      Except Error (String × Registry) :=
    match doc with
    | some doc => .ok (format.print doc.toData, r)
    | none => .error (.nothingStored name)

end RegistryCommand

/-- The command changes a registry, if it succeeds. -/
def RegistryCommand.changes : RegistryCommand → Bool
  | addInfo .. | updateInfo .. | addSchema .. | saveDraft .. | publish .. => true
  | infos | document .. | draft .. => false

/-! ## Invocations -/

namespace Invocation

/-- The settings that a command is carried out with. -/
def settings (i : Invocation) (files : Files) : Except Error Settings :=
  match i.settingsPath with
  | some path => files.readSettings path
  | none => .ok {}

/-- Open the registry that a command works on. -/
def openRegistry (i : Invocation) : Work OpenRegistry :=
  match Registry.Location.ofText? i.registryPath with
  | some location => OpenRegistry.load location
  | none => throw .database

/-- Carry out a command on an open registry, and close it. -/
def runOn (i : Invocation) (text : DefinitionText) (newId : String) (compiler : Compiler)
    (command : RegistryCommand) (r : OpenRegistry) : Work String := do
  match command.run text newId compiler i.format (← get) r.registry with
  | .error e =>
    r.close
    throw e
  | .ok (output, registry) =>
    if command.changes then r.save registry
    r.close
    return output

/-- Carry out a command, and give what it prints. -/
def work (i : Invocation) (text : DefinitionText) (newId : String) : Work String := do
  let files ← get
  let compiler := (← i.settings files).compiler
  match i.command with
  | .compile path => compiler.compile (← files.readDocument path)
  | .tables path =>
    let d ← compiler.decompose (← files.readDocument path)
    return i.format.print (.list (d.tables.map Table.toData))
  | .onRegistry command => i.runOn text newId compiler command (← i.openRegistry)

/-- Carry out a command on a tree of files : what it prints, and the files that come of it. -/
def run (i : Invocation) (text : DefinitionText) (newId : String) (files : Files) :
    Except Error String × Files :=
  (i.work text newId).run.run files

end Invocation

end DocTables
