import DocTables.Bytes

/-!
# A tree of files

Files and directories by their paths. A path is a row of bytes with slashes between names; it starts
from the root if it begins with a slash, and from the working directory if not. `Files.locate`
follows a path name by name, and `Files.target` finds where a path leads from its names alone, so
that it may pass through directories that are not there.
-/

namespace DocTables

namespace Files

/-- What stands at a place. -/
inductive Entry where
  | directory
  | file (bytes : ByteArray)

/-- A name, which need not be a text. -/
abbrev Name := Bytes

/-- The names from the root to a place. -/
abbrev Place := List Name

end Files

structure Files where
  /-- The working directory. -/
  here : Files.Place := []
  entries : List (Files.Place × Files.Entry) := []

namespace Files

/-- What stands at a place. The root is a directory. -/
def find? (files : Files) (place : Place) : Option Entry :=
  if place.isEmpty then some .directory else files.entries.lookup place

def isDirectory (files : Files) (place : Place) : Bool :=
  match files.find? place with
  | some .directory => true
  | _ => false

/-- Take away what stands at a place. -/
def remove (files : Files) (place : Place) : Files :=
  { files with entries := files.entries.filter (·.1 != place) }

/-- Put an entry in a place. -/
def put (files : Files) (place : Place) (entry : Entry) : Files :=
  { files with entries := (place, entry) :: (files.remove place).entries }

/-- Put an entry in a place, and a directory wherever nothing is on the way to it. -/
def putUnder (files : Files) (place : Place) (entry : Entry) : Files :=
  let way := (List.range place.length).map place.take
  let files := way.foldl
    (fun files dir => if (files.find? dir).isNone then files.put dir .directory else files) files
  files.put place entry

/-! ## Paths -/

/-- The byte between two names of a path. -/
def slash : UInt8 := 0x2F

/-- The name that stays where it is. -/
def dot : Name := Bytes.ofText "."

/-- The name that leads back. -/
def dots : Name := Bytes.ofText ".."

/-- The longest name. -/
def maxNameLength : Nat := 255

/-- From here on, paths are too long to be followed. -/
def pathBound : Nat := 4096

/-- From here on, paths are too long to be found from their names. -/
def targetBound : Nat := 512

/-- A name that a file may have. -/
def isName (name : Name) : Bool := name.length ≤ maxNameLength && !name.contains 0

/-- The names in a path, with an empty one wherever a slash has no name beside it. -/
def names (path : Bytes) : List Name := path.splitOn slash

/-- The place from which a path starts. -/
def start (files : Files) (path : Bytes) : Place :=
  if path.head? = some slash then [] else files.here

/-- A name that does not lead on. -/
def isIdle (name : Name) : Bool := name.isEmpty || name == dot

/-- Follow names from a place. Every step must start from a directory. -/
def walk (files : Files) (place : Place) : List Name → Option Place
  | [] => some place
  | name :: rest =>
    if files.isDirectory place then
      if isIdle name then walk files place rest
      else if name == dots then walk files place.dropLast rest
      else if isName name then walk files (place ++ [name]) rest
      else none
    else none

/-- The place that a path leads to, name by name. -/
def locate (files : Files) (path : Bytes) : Option Place :=
  if path.isEmpty || pathBound ≤ path.length then none
  else files.walk (files.start path) (names path)

/-- The path from the root to a place. -/
def pathOf (place : Place) : Bytes := place.flatMap (slash :: ·)

/-- One name of a path, which need not lead to a directory that is there, but not further on from a
file. -/
def advance? (files : Files) (place : Place) (name : Name) : Option Place :=
  if isIdle name then some place
  else if name == dots then some place.dropLast
  else
    let next := place ++ [name]
    match files.find? place with
    | some (.file _) => none
    | _ => if isName name && (pathOf next).length < targetBound then some next else none

/-- The place that a path names. -/
def target (files : Files) (path : Bytes) : Option Place :=
  (names path).foldlM files.advance? (files.start path)

/-- The bytes of the file that a path leads to. -/
def bytes? (files : Files) (path : Bytes) : Option ByteArray := do
  match ← files.find? (← files.locate path) with
  | .file bytes => return bytes
  | .directory => none

/-- The text of the file that a path leads to, which must be in UTF-8. -/
def text? (files : Files) (path : Bytes) : Option String := do
  String.fromUTF8? (← files.bytes? path)

/-! ## Extensions -/

/-- The last name in a path. -/
def lastName? (path : Bytes) : Option Name :=
  ((names path).filter (!isIdle ·)).getLast?.filter (· != dots)

/-- What follows the last dot of a name. A dot at the beginning does not count. -/
def extensionOf? (name : Name) : Option Name :=
  match (name.splitOn 0x2E).reverse with
  | [] | [_] => none
  | [_, []] => none
  | extension :: _ => some extension

/-- The extension of the last name in a path. -/
def extension? (path : Bytes) : Option Name := (lastName? path).bind extensionOf?

end Files

end DocTables
