import DocTables.Bytes

/-!
# Where a registry is kept

The location of a registry is written as a path, or as an address that begins with `file:`. The path
`:memory:` and the empty path stand for a registry that is lost when it is closed.

An address has a host, which must be none or this one, then a path, and options after a question
mark. It ends before a hash. Each part of it may have bytes that are written after percent signs, and
ends before the first zero. `Location.ofText?` reads a location, and refuses an option that is known
and has a value that is not.
-/

namespace DocTables.Registry

/-- What may be done with the file of a registry. -/
inductive Access where
  /-- It is only read. -/
  | read
  /-- It is written too. -/
  | write
  /-- It is made if it is not there. -/
  | create
  deriving DecidableEq, Repr

inductive Location where
  /-- The registry is lost when it is closed. -/
  | memory
  /-- The registry is in a file. One that is frozen is not changed, and no file beside it counts. -/
  | file (path : Bytes) (access : Access) (frozen : Bool)
  deriving DecidableEq, Repr

namespace Location

/-- The path of a registry that is not in a file. -/
def memoryPath : String := ":memory:"

/-- The registry is not in a file with this path. -/
def isMemoryPath (path : Bytes) : Bool := path.isEmpty || path == Bytes.ofText memoryPath

/-- The location with a path that stands for itself. -/
def ofPath (path : Bytes) : Location :=
  if isMemoryPath path then .memory else .file path .create false

/-! ## Parts of an address -/

/-- What an address begins with. -/
def scheme : String := "file:"

/-- The name of this host. -/
def thisHost : String := "localhost"

/-- What follows the host of an address. -/
def afterHost? : List Char → Option (List Char)
  | '/' :: '/' :: rest =>
    let host := rest.takeWhile (· ≠ '/')
    if host.isEmpty ∨ host = thisHost.toList then some (rest.drop host.length) else none
  | rest => some rest

/-- The bytes that a part of an address stands for. -/
def unescape : List Char → Bytes
  | '%' :: a :: b :: rest =>
    match Digits.number? 16 [a, b] with
    | some 0 => []
    | some n => UInt8.ofNat n :: unescape rest
    | none => String.utf8EncodeChar '%' ++ unescape (a :: b :: rest)
  | c :: rest => String.utf8EncodeChar c ++ unescape rest
  | [] => []

/-- The options of an address, each with its value. One without a name does not count. -/
def options (cs : List Char) : List (Bytes × Bytes) :=
  ((cs.splitOn '&').map fun option =>
    (unescape (option.takeWhile (· ≠ '=')), unescape ((option.dropWhile (· ≠ '=')).drop 1))).filter
    fun option => !option.1.isEmpty

/-- The values of the options with a name. -/
def valuesOf (options : List (Bytes × Bytes)) (name : String) : List Bytes :=
  (options.filter (·.1 == Bytes.ofText name)).map Prod.snd

/-- The one of some choices that is written as this value. -/
def choose? {α : Type} (choices : List (String × α)) (value : Bytes) : Option α :=
  (choices.find? fun choice => value == Bytes.ofText choice.1).map Prod.snd

/-! ## Options -/

/-- How a registry may be used : with which access to its file, or in memory instead. -/
abbrev Mode := Option Access

def modes : List (String × Mode) :=
  [("ro", some .read), ("rw", some .write), ("rwc", some .create), ("memory", none)]

/-- How much an access allows. -/
def rank : Access → Nat
  | .read => 0
  | .write => 1
  | .create => 2

/-- A mode takes the place of another, which must allow as much. -/
def replace? (old new : Mode) : Option Mode :=
  match old, new with
  | some old, some new => if rank new ≤ rank old then some (some new) else none
  | _, _ => some new

/-- The mode that an address says. -/
def mode? (options : List (Bytes × Bytes)) : Option Mode :=
  (valuesOf options "mode").foldlM (fun old value => do replace? old (← choose? modes value))
    (some .create)

/-- The ways to keep files, and whether they are kept in memory. -/
def keepers : List (String × Bool) :=
  [("unix", false), ("unix-excl", false), ("unix-none", false), ("unix-dotfile", false),
    ("memdb", true)]

/-- Whether files are kept in memory, by the last option that says so. -/
def keeper? (options : List (Bytes × Bytes)) : Option Bool :=
  match (valuesOf options "vfs").getLast? with
  | some value => choose? keepers value
  | none => some false

/-- Whether a cache is shared. It makes no difference, but it must be said well. -/
def caches : List (String × Bool) := [("shared", true), ("private", false)]

/-- A value that means yes : a word for it, or a number whose last byte is not zero. -/
def isYes (value : Bytes) : Bool :=
  let cs := value.map Char.ofUInt8
  let digits := cs.takeWhile Char.isDigit
  if digits.isEmpty then ["on", "yes", "true"].any fun word => cs.map Char.toLower = word.toList
  else (Digits.number? 10 digits).any fun n => n ≤ 2147483647 && n % 256 != 0

/-- The file is taken as it is and not changed. -/
def isFrozen (options : List (Bytes × Bytes)) : Bool :=
  (valuesOf options "immutable").head?.any isYes

/-! ## Locations -/

/-- The location with an address, of which the beginning is left out. A registry in memory must not
be one that is only read. -/
def ofAddress? (cs : List Char) : Option Location := do
  let cs := (← afterHost? cs).takeWhile (· ≠ '#')
  let path := unescape (cs.takeWhile (· ≠ '?'))
  let options := options ((cs.dropWhile (· ≠ '?')).drop 1)
  let mode ← mode? options
  let inMemory ← keeper? options
  if !(valuesOf options "cache").all fun value => (choose? caches value).isSome then none
  match mode with
  | none => return .memory
  | some access =>
    if isMemoryPath path then
      if access = .read then none else return .memory
    else if inMemory then
      if access = .read ∨ isFrozen options then none else return .memory
    else return .file path access (isFrozen options)

/-- The location that a text says, in which there must be no zero. -/
def ofText? (text : String) : Option Location :=
  let cs := text.toList
  if cs.contains '\x00' then none
  else if scheme.toList.isPrefixOf cs then ofAddress? (cs.drop scheme.length)
  else some (ofPath (Bytes.ofText text))

end Location

end DocTables.Registry
