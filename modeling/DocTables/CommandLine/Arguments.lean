import DocTables.CommandLine
import DocTables.Digits

/-!
# Reading arguments

Arguments are read from left to right. The first one that cannot stand where it stands, and the
first request for help, end the reading. An option has its value after an equals sign, or as the
next argument, which then must not look like an option itself. After two dashes come operands only.

The options before the name of the command are read first. The last one of them is not looked at
before the rest of the line is read, if its value is an argument of its own; so a request for help
with the command is heard even if that value is bad.
-/

namespace DocTables.CommandLine

/-- Why a command line asks for nothing to be done. -/
inductive Stop where
  /-- The arguments do not fit. -/
  | misuse
  /-- Help, or the version, is asked for. -/
  | help
  deriving DecidableEq, Repr

/-! ## Values -/

/-- A whole number in decimal digits, with a sign or not. -/
def int? (s : String) : Option Int :=
  match s.toList with
  | '-' :: digits => (Digits.number? 10 digits).map fun n => -n
  | '+' :: digits => (Digits.number? 10 digits).map fun n => n
  | digits => (Digits.number? 10 digits).map fun n => n

def revision? (s : String) : Option Int32 := (int? s).bind Digits.int32?

def bool? (s : String) : Option Bool :=
  if s = "true" then some true else if s = "false" then some false else none

def format? (s : String) : Option Format :=
  if s = "yaml" then some .yaml else if s = "json" then some .json else none

def isPath (s : String) : Bool := !s.isEmpty

def isAny (_ : String) : Bool := true

/-! ## What a command takes -/

/-- The arguments that may be given. -/
structure Grammar where
  /-- The options without a value. -/
  flags : List String := []
  /-- The options with a value, and which values they take. -/
  options : List (String × (String → Bool)) := []
  /-- Which operands are taken, in their order. All of them must be given. -/
  operands : List (String → Bool) := []

/-- The arguments that have been given. -/
structure Given where
  /-- The options, the last one first. A flag has the empty value. -/
  options : List (String × String) := []
  /-- The operands, the last one first. -/
  operands : List String := []

namespace Given

/-- The value of an option. -/
def option? (g : Given) (name : String) : Option String := g.options.lookup name

/-- The operand in a place, counted from zero. -/
def operand (g : Given) (i : Nat) : String := g.operands.reverse[i]?.getD ""

/-- An option is given for the first time, with a value that it takes. -/
def addOption (grammar : Grammar) (g : Given) (name value : String) : Except Stop Given :=
  match grammar.options.lookup name with
  | some accepts =>
    if (g.option? name).isNone && accepts value then
      .ok { g with options := (name, value) :: g.options }
    else .error .misuse
  | none => .error .misuse

/-- A flag is given for the first time. -/
def addFlag (g : Given) (name : String) : Except Stop Given :=
  if (g.option? name).isNone then .ok { g with options := (name, "") :: g.options }
  else .error .misuse

/-- One more operand is given. -/
def addOperand (grammar : Grammar) (g : Given) (value : String) : Except Stop Given :=
  match grammar.operands[g.operands.length]? with
  | some accepts =>
    if accepts value then .ok { g with operands := value :: g.operands } else .error .misuse
  | none => .error .misuse

end Given

/-! ## Single arguments -/

/-- What an argument looks like. -/
inductive Form where
  /-- Two dashes. -/
  | separator
  /-- An option by its name, perhaps with a value. -/
  | long (name : String) (value : Option String)
  /-- A dash and letters, of which this is the first. -/
  | short (letter : Char)
  | operand
  deriving DecidableEq, Repr

/-- A dash alone is an operand. -/
def form (arg : String) : Form :=
  match arg.toList with
  | ['-', '-'] => .separator
  | '-' :: '-' :: rest =>
    let name := rest.takeWhile (· != '=')
    match rest.dropWhile (· != '=') with
    | [] => .long (String.ofList name) none
    | _ :: value => .long (String.ofList name) (some (String.ofList value))
  | '-' :: letter :: _ => .short letter
  | _ => .operand

/-- An argument that can be the value of the option before it. -/
def isValue (arg : String) : Bool := form arg == .operand

/-! ## The arguments of a command -/

/-- All operands are there. -/
def finish (grammar : Grammar) (g : Given) : Except Stop Given :=
  if g.operands.length = grammar.operands.length then .ok g else .error .misuse

/-- Read arguments that are operands, whatever they look like. -/
def scanOperands (grammar : Grammar) (g : Given) : List String → Except Stop Given
  | [] => finish grammar g
  | arg :: args => do scanOperands grammar (← g.addOperand grammar arg) args

/-- Read the arguments of a command. -/
def scan (grammar : Grammar) (g : Given) : List String → Except Stop Given
  | [] => finish grammar g
  | arg :: args =>
    match form arg with
    | .separator => scanOperands grammar g args
    | .operand => do scan grammar (← g.addOperand grammar arg) args
    | .short letter => .error (if letter = 'h' then .help else .misuse)
    | .long name (some value) => do scan grammar (← g.addOption grammar name value) args
    | .long name none =>
      if name = "help" then .error .help
      else if grammar.flags.contains name then do scan grammar (← g.addFlag name) args
      else
        match args with
        | [] => .error .misuse
        | value :: args =>
          if isValue value then do scan grammar (← g.addOption grammar name value) args
          else .error .misuse

/-! ## Commands -/

/-- What a command takes, and what it makes of it. -/
structure Verb where
  name : String
  grammar : Grammar
  build : Given → Except Stop Command

/-- A description or a remark that is left out is empty. -/
def textOption (g : Given) (name : String) : String := (g.option? name).getD ""

/-- The commands by name. -/
def verbs : List Verb :=
  [{ name := "compile"
     grammar := { operands := [isPath] }
     build := fun g => .ok (.compile (g.operand 0)) },
   { name := "tables"
     grammar := { operands := [isPath] }
     build := fun g => .ok (.tables (g.operand 0)) },
   { name := "info-add"
     grammar := { options := [("description", isAny)], operands := [isAny] }
     build := fun g => .ok (.onRegistry (.addInfo (g.operand 0) (textOption g "description"))) },
   { name := "info-update"
     grammar :=
       { options := [("description", isAny), ("active", fun s => (bool? s).isSome)]
         operands := [isAny] }
     build := fun g =>
       .ok (.onRegistry (.updateInfo (g.operand 0) (g.option? "description")
         ((g.option? "active").bind bool?))) },
   { name := "infos"
     grammar := {}
     build := fun _ => .ok (.onRegistry .infos) },
   { name := "add"
     grammar := { options := [("remark", isAny)], operands := [isPath] }
     build := fun g => .ok (.onRegistry (.addSchema (g.operand 0) (textOption g "remark"))) },
   { name := "draft"
     grammar := { options := [("remark", isAny)], operands := [isPath] }
     build := fun g => .ok (.onRegistry (.saveDraft (g.operand 0) (textOption g "remark"))) },
   { name := "show"
     grammar :=
       { flags := ["draft"]
         options := [("revision", fun s => (revision? s).isSome)]
         operands := [isAny] }
     build := fun g =>
       match g.option? "draft", g.option? "revision" with
       | some _, some _ => .error .misuse
       | some _, none => .ok (.onRegistry (.draft (g.operand 0)))
       | none, revision => .ok (.onRegistry (.document (g.operand 0) (revision.bind revision?))) },
   { name := "publish"
     grammar := { operands := [isAny] }
     build := fun g => .ok (.onRegistry (.publish (g.operand 0))) }]

def verb? (name : String) : Option Verb := verbs.find? (·.name == name)

/-- Read the arguments that follow the name of a command. -/
def Verb.read (v : Verb) (args : List String) : Except Stop Command := do
  v.build (← scan v.grammar {} args)

/-- The name of the command that gives help. -/
def helpVerb : String := "help"

/-- Help is given for a single command, or for all of them. -/
def readHelp : List String → Stop
  | [] => .help
  | [name] => if name = helpVerb ∨ (verb? name).isSome then .help else .misuse
  | _ => .misuse

/-! ## The whole line -/

/-- The options that stand before the name of the command. -/
def globalGrammar : Grammar where
  options :=
    [("registry", isPath), ("config", isPath), ("format", fun s => (format? s).isSome)]

/-- An option whose value has not been looked at yet. -/
abbrev Pending := Option (String × String)

/-- Look at the option that is pending. -/
def settle (g : Given) : Pending → Except Stop Given
  | none => .ok g
  | some (name, value) => g.addOption globalGrammar name value

/-- The command with its options. -/
def invocation (g : Given) (command : Command) : Invocation where
  registryPath := (g.option? "registry").getD defaultRegistryPath
  settingsPath := g.option? "config"
  format := ((g.option? "format").bind format?).getD .yaml
  command

/-- Read the options, and then the command. -/
def scanGlobal (g : Given) (pending : Pending) : List String → Except Stop Invocation
  | [] => .error .misuse
  | arg :: args =>
    match form arg with
    | .separator => .error .misuse
    | .operand =>
      if arg = helpVerb then .error (readHelp args)
      else
        match verb? arg with
        | none => .error .misuse
        | some v => do
          let command ← v.read args
          return invocation (← settle g pending) command
    | .short letter => do
      let _ ← settle g pending
      .error (if letter = 'h' ∨ letter = 'V' then .help else .misuse)
    | .long name (some value) => do
      scanGlobal (← (← settle g pending).addOption globalGrammar name value) none args
    | .long name none => do
      let g ← settle g pending
      if name = "help" ∨ name = "version" then .error .help
      else if (globalGrammar.options.lookup name).isNone then .error .misuse
      else
        match args with
        | [] => .error .misuse
        | value :: args =>
          if isValue value then scanGlobal g (some (name, value)) args else .error .misuse

/-- What the arguments ask for. -/
def parse (args : List String) : Except Stop Invocation := scanGlobal {} none args

end DocTables.CommandLine
