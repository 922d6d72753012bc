import DocTables.Compiler
import DocTables.Document.Yaml

/-!
# The registry of schemas

A registry keeps document types under their names, in three tables. A name is registered once, with
an id that never changes. A definition stands under a name and a number : the revisions of a name are
numbered from one in the order in which they came, and the draft has a number that no revision has. A
script stands under the name and the number of the revision that was published. No two rows of a
table have one key.

A definition is a text. It is written with the id and the number under which it is stored, whatever
the document said, and read again whenever it is asked for.
-/

namespace DocTables

/-- How definitions are written and read. -/
structure DefinitionText where
  write : Document → String
  read : String → Except Error Document

/-- Definitions in YAML. -/
def DefinitionText.yaml : DefinitionText := ⟨Document.toYaml, Document.ofYaml⟩

/-! ## Rows -/

/-- A name that is registered. -/
structure Registration where
  id : String
  name : String
  description : String
  active : Bool := true
  deriving DecidableEq, Repr

/-- A document type as it is stored, with the remark of the one who stored it. -/
structure Definition where
  name : String
  revision : Int32
  text : String
  remark : String := ""
  deriving DecidableEq, Repr

/-- The script of a revision. -/
structure Published where
  name : String
  revision : Int32
  script : String
  deriving DecidableEq, Repr

/-- A name and a number. -/
abbrev Key := String × Int32

def Definition.key (d : Definition) : Key := (d.name, d.revision)

def Published.key (p : Published) : Key := (p.name, p.revision)

namespace Rows

variable {α : Type} (key : α → Key)

/-- The row with a key. -/
def find? (k : Key) (rows : List α) : Option α := rows.find? (key · = k)

/-- Add a row, whose key no row may have yet. -/
def insert (row : α) (rows : List α) : Except Error (List α) :=
  if (find? key (key row) rows).isSome then .error .database else .ok (rows ++ [row])

/-- Add a row, in place of the one with its key. -/
def replace (row : α) (rows : List α) : List α := rows.filter (key · ≠ key row) ++ [row]

end Rows

/-- The number of the draft. -/
def draftRevision : Int32 := -1

/-- The definition with the highest number. -/
def Definition.highest? : List Definition → Option Definition
  | [] => none
  | d :: ds =>
    match highest? ds with
    | some e => if d.revision < e.revision then some e else some d
    | none => some d

/-- What is known of a name that is registered. -/
structure Info where
  id : String
  name : String
  description : String
  active : Bool
  /-- The number of the last revision, if there is one. -/
  latest : Option Int32
  hasDraft : Bool
  deriving DecidableEq, Repr

structure Registry where
  /-- In the order of the names. -/
  registrations : List Registration := []
  definitions : List Definition := []
  scripts : List Published := []
  deriving DecidableEq, Repr

namespace Registry

/-- Nothing is registered. -/
def empty : Registry := {}

/-! ## Definitions by number -/

/-- The definition of a revision, or of the draft under its own number. -/
def definition? (r : Registry) (name : String) (revision : Int32) : Option Definition :=
  Rows.find? Definition.key (name, revision) r.definitions

/-- The revisions of a name. The draft is not one of them. -/
def revisions (r : Registry) (name : String) : List Definition :=
  r.definitions.filter fun d => d.name = name ∧ 0 < d.revision

/-- The last revision of a name. -/
def last? (r : Registry) (name : String) : Option Definition :=
  Definition.highest? (r.revisions name)

/-- The number of the last revision of a name. -/
def latest? (r : Registry) (name : String) : Option Int32 := (r.last? name).map (·.revision)

/-! ## Infos -/

/-- Names are in the order of their bytes. -/
def nameLt (a b : String) : Bool := Bytes.ofText a < Bytes.ofText b

/-- Insert a registration before the first one that comes after it. -/
def insertRegistration (new : Registration) : List Registration → List Registration
  | [] => [new]
  | n :: ns => if nameLt new.name n.name then new :: n :: ns else n :: insertRegistration new ns

def registration? (r : Registry) (name : String) : Option Registration :=
  r.registrations.find? (·.name = name)

/-- What is known of a registration. -/
def info (r : Registry) (n : Registration) : Info where
  id := n.id
  name := n.name
  description := n.description
  active := n.active
  latest := r.latest? n.name
  hasDraft := (r.definition? n.name draftRevision).isSome

def info? (r : Registry) (name : String) : Option Info := (r.registration? name).map r.info

def infoById? (r : Registry) (id : String) : Option Info :=
  (r.registrations.find? (·.id = id)).map r.info

/-- All infos, in the order of the names. -/
def infos (r : Registry) : List Info := r.registrations.map r.info

/-- The info of a name, which must be registered. -/
def registered (r : Registry) (name : String) : Except Error Info :=
  match r.info? name with
  | some info => .ok info
  | none => .error (.infoNotFound name)

/-- Register a name. -/
def addInfo (r : Registry) (id name description : String) : Except Error (Info × Registry) :=
  match r.info? name with
  | some _ => .error (.infoExists name)
  | none =>
    let registrations := insertRegistration { id, name, description } r.registrations
    .ok ({ id, name, description, active := true, latest := none, hasDraft := false },
      { r with registrations })

/-- Change the description of a name, and whether it is active. -/
def updateInfo (r : Registry) (name description : String) (active : Bool) :
    Except Error (Info × Registry) := do
  let change (n : Registration) : Registration :=
    if n.name = name then { n with description, active } else n
  let r := { r with registrations := r.registrations.map change }
  return (← r.registered name, r)

/-! ## Revisions -/

variable (text : DefinitionText)

/-- The number of the next revision. To add one to the greatest number, 2147483647, overflows. What
comes of that depends on whether overflows are checked and is not modelled; here it is an error. -/
def nextRevision (r : Registry) (name : String) : Except Error Int32 :=
  match Digits.int32? (((r.latest? name).getD 0).toInt + 1) with
  | some revision => .ok revision
  | none => .error .database

/-- A document as it is stored under an id and a number. -/
def stamp (id : String) (revision : Int32) (doc : Document) : Document := { doc with id, revision }

/-- The row of a document that is stored under an id and a number. -/
def definitionOf (id : String) (revision : Int32) (doc : Document) (remark : String) : Definition :=
  { name := doc.name, revision, text := text.write (stamp id revision doc), remark }

/-- Store a document as the next revision, and give its number. -/
def addSchema (r : Registry) (doc : Document) (remark : String := "") :
    Except Error (Int32 × Registry) := do
  let info ← r.registered doc.name
  let revision ← r.nextRevision doc.name
  let row := definitionOf text info.id revision doc remark
  let definitions ← Rows.insert Definition.key row r.definitions
  return (revision, { r with definitions })

/-- Store a document as the draft, in place of the one there is. -/
def saveDraft (r : Registry) (doc : Document) (remark : String := "") : Except Error Registry := do
  let info ← r.registered doc.name
  let row := definitionOf text info.id draftRevision doc remark
  return { r with definitions := Rows.replace Definition.key row r.definitions }

/-- Read a definition, if there is one. -/
def readDefinition (definition : Option Definition) : Except Error (Option Document) :=
  match definition with
  | none => .ok none
  | some d => (text.read d.text).map some

/-- The document of a revision, or of the draft under its own number. -/
def documentAt (r : Registry) (name : String) (revision : Int32) :
    Except Error (Option Document) :=
  readDefinition text (r.definition? name revision)

/-- The document of the last revision. -/
def document (r : Registry) (name : String) : Except Error (Option Document) :=
  readDefinition text (r.last? name)

/-- The document of the draft. -/
def draft (r : Registry) (name : String) : Except Error (Option Document) :=
  r.documentAt text name draftRevision

/-! ## Scripts -/

/-- Compile the last revision, and keep its script under the name and the number that the document
has. -/
def publish (r : Registry) (name : String) (c : Compiler) : Except Error (Published × Registry) := do
  match ← r.document text name with
  | some doc =>
    let published : Published :=
      { name := doc.name, revision := doc.revision, script := ← c.compile doc }
    return (published, { r with scripts := Rows.replace Published.key published r.scripts })
  | none => .error (.revisionNotFound name 0)

/-- The script of a revision, if it has been published. -/
def published? (r : Registry) (name : String) (revision : Int32) : Option Published :=
  Rows.find? Published.key (name, revision) r.scripts

end Registry

end DocTables
