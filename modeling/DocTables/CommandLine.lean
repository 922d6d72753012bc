/-!
# The command line

What a command line can ask for. `CommandLine.parse` reads it and `Invocation.run` carries it out.
-/

namespace DocTables

/-- How structured results are printed. -/
inductive Format where
  | yaml
  | json
  deriving DecidableEq, Repr

/-- What a command does with a registry. Names of files are called paths; other names are those of
schemas. -/
inductive RegistryCommand where
  /-- Register a name. -/
  | addInfo (name description : String)
  /-- Change what is given, and keep the rest. -/
  | updateInfo (name : String) (description : Option String) (active : Option Bool)
  /-- Print what is registered. -/
  | infos
  /-- Store a document type as the next revision. -/
  | addSchema (path remark : String)
  /-- Store a document type as the draft. -/
  | saveDraft (path remark : String)
  /-- Print a revision, or the last one. -/
  | document (name : String) (revision : Option Int32)
  /-- Print the draft. -/
  | draft (name : String)
  /-- Print the script of the last revision, and keep it. -/
  | publish (name : String)
  deriving DecidableEq, Repr

inductive Command where
  /-- Print the script of a document type. -/
  | compile (path : String)
  /-- Print the tables of a document type. -/
  | tables (path : String)
  | onRegistry (command : RegistryCommand)
  deriving DecidableEq, Repr

/-- The path of the registry unless another one is given. -/
def defaultRegistryPath : String := "formdb.db"

/-- A command, and the options that all commands have. -/
structure Invocation where
  registryPath : String := defaultRegistryPath
  settingsPath : Option String := none
  format : Format := .yaml
  command : Command
  deriving DecidableEq, Repr

end DocTables
