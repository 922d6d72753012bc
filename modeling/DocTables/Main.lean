import DocTables.CommandLine.Arguments
import DocTables.CommandLine.Execution
import DocTables.Uuid

/-!
# The program

Brings in the files that an invocation names, carries it out, and writes the files that came of it.
-/

namespace DocTables.Program

/-- The paths that an invocation may read, besides that of its registry. -/
def paths (i : Invocation) : List String :=
  i.settingsPath.toList ++
    match i.command with
    | .compile path | .tables path => [path]
    | .onRegistry (.addSchema path _) | .onRegistry (.saveDraft path _) => [path]
    | .onRegistry _ => []

/-- The absolute path of a place, if it is a text. -/
def pathOf? (place : Files.Place) : Option String := do
  return "/" ++ String.intercalate "/" (← place.mapM Bytes.text?)

/-- The places on the way along a path. -/
def placesOf (files : Files) (path : Bytes) : List Files.Place :=
  (Files.names path).foldl
    (fun places name => ((files.advance? (places.headD []) name).getD []) :: places)
    [files.start path]

/-- The places that matter for the registry of an invocation. -/
def registryPlaces (i : Invocation) (files : Files) : List Files.Place :=
  match Registry.Location.ofText? i.registryPath with
  | some (.file path _ _) =>
    let places := placesOf files path
    let place := places.headD []
    places ++ [Files.journalEnding, Files.logEnding, Files.indexEnding].map (Files.beside place)
  | _ => []

/-- Bring in what stands in a place. What cannot be read as a file counts as a directory. -/
def bringIn (files : Files) (place : Files.Place) : IO Files := do
  match pathOf? place with
  | none => return files
  | some path =>
    let path := (← IO.currentDir) / path
    if ← path.pathExists then
      let entry : Files.Entry ←
        try pure (.file (← IO.FS.readBinFile path))
        catch _ => pure .directory
      return files.put place entry
    else return files

/-- The files that an invocation may read. -/
def bringInAll (i : Invocation) : IO Files := do
  let here := (Files.names (Bytes.ofText (← IO.currentDir).toString)).filter (!Files.isIdle ·)
  let start : Files := { here }
  let above := (List.range (here.length + 1)).map here.take
  let named := (paths i).flatMap fun path => placesOf start (Bytes.ofText path)
  let files ← (above ++ named).foldlM bringIn start
  (registryPlaces i files).foldlM bringIn files

/-- Write the files that have changed, and take away those that are gone. -/
def writeBack (before after : Files) : IO Unit := do
  for (place, entry) in before.entries do
    if let (.file _, none, some path) := (entry, after.find? place, pathOf? place) then
      IO.FS.removeFile path
  for (place, entry) in after.entries do
    if let (.file new, some path) := (entry, pathOf? place) then
      match before.find? place with
      | some (.file old) => if old.data != new.data then IO.FS.writeBinFile path new
      | _ => IO.FS.writeBinFile path new

/-- What is printed for an error that has no wording of its own. -/
def wording (e : Error) : String :=
  e.message.getD <|
    match e with
    | .io => "a file cannot be read as text"
    | .yaml => "a file is not YAML of the form that is expected"
    | .json => "a file is not JSON of the form that is expected"
    | _ => "the registry cannot be opened"

/-- How the program is called. -/
def usage : String :=
  "Compile document types into relational tables\n\n" ++
  "Options: [--registry PATH] [--config PATH] [--format yaml|json]\n\n" ++
  "  compile PATH                          print the script of a document type\n" ++
  "  tables PATH                           print the tables of a document type\n" ++
  "  info-add NAME [--description TEXT]    register a name\n" ++
  "  info-update NAME [--description TEXT] [--active true|false]\n" ++
  "                                        change what is registered\n" ++
  "  infos                                 list what is registered\n" ++
  "  add PATH [--remark TEXT]              store the next revision\n" ++
  "  draft PATH [--remark TEXT]            store the draft\n" ++
  "  show NAME [--revision N | --draft]    print what is stored\n" ++
  "  publish NAME                          print and keep the script of the last revision\n" ++
  "  help [COMMAND]                        print this text\n"

/-- Carry out an invocation, and give the exit code. -/
def runInvocation (i : Invocation) : IO UInt32 := do
  let newId := Uuid.ofBytes (← IO.getRandomBytes 16).toList
  let files ← bringInAll i
  let (result, after) := i.run .yaml newId files
  writeBack files after
  match result with
  | .ok output =>
    IO.print output
    return 0
  | .error e =>
    IO.eprintln ("ERROR:" ++ wording e)
    return 1

end DocTables.Program

def main (args : List String) : IO UInt32 := do
  match DocTables.CommandLine.parse args with
  | .ok invocation => DocTables.Program.runInvocation invocation
  | .error .help =>
    IO.print DocTables.Program.usage
    return 0
  | .error .misuse =>
    IO.eprint DocTables.Program.usage
    return 2
