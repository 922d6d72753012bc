import DocTables.CommandLine.Execution
import DocTables.Proofs.RegistryFiles
import DocTables.Proofs.Reopening

/-!
# Sessions

A session is a row of processes, each of which opens a registry at the same path, carries out one
command and closes it. What they print, and whether they fail, is the same as if the commands were
carried out one after the other on one registry that is open all the time (`Session.replays`). Where
the registry is, a process finds what the one before has left; elsewhere files may have changed
(`Files.Untouched`).

One process prints what its command prints on the registry that its files have, and leaves files that
have the registry that comes of it (`Process.run_eq`). A session is an induction over this.
-/

namespace DocTables

/-! ## Processes -/

/-- A command that is carried out on its own. -/
structure Process where
  /-- The files that it finds. -/
  files : Files
  /-- The id that it gives to a name, if it registers one. -/
  newId : String
  settingsPath : Option String := none
  format : Format := .yaml
  command : RegistryCommand

namespace Process

variable (text : DefinitionText) (registryPath : String)

/-- What a process is asked for, with the path of its registry. -/
def invocation (p : Process) : Invocation where
  registryPath
  settingsPath := p.settingsPath
  format := p.format
  command := .onRegistry p.command

/-- What a process prints, and the files that it leaves. -/
def run (p : Process) : Except Error String × Files :=
  (p.invocation registryPath).run text p.newId p.files

/-- The files once the registry has been opened. -/
def opened (p : Process) : Files :=
  ((p.invocation registryPath).openRegistry.run.run p.files).2

/-- What comes of the command if it is carried out on a registry that is open. -/
def result (p : Process) (r : Registry) : Except Error (String × Registry) := do
  let settings ← (p.invocation registryPath).settings p.files
  p.command.run text p.newId settings.compiler p.format (p.opened registryPath) r

/-- What is printed then, and the registry that is open afterwards, which is as it was if the command
fails. -/
def call (p : Process) (r : Registry) : Except Error String × Registry :=
  ((p.result text registryPath r).map Prod.fst,
    ((p.result text registryPath r).map Prod.snd).toOption.getD r)

end Process

/-! ## One process -/

open Files

section

variable {text : DefinitionText} {registryPath : String} {path : Bytes} {access : Registry.Access}
  {place : Place} {r r' : Registry} {files : Files} {newId : String} {compiler : Compiler}
  {format : Format} {command : RegistryCommand} {output : String}

/-- An operation that a command carries out. A document that it stores has been read from a text. -/
def Registry.Operation.IsSubmitted : Registry.Operation → Prop
  | .addSchema doc _ | .saveDraft doc _ =>
    ∃ s, Document.ofJson s = .ok doc ∨ Document.ofYaml s = .ok doc
  | .reopen => False
  | _ => True

theorem Files.exists_of_readDocument {s : String} {doc : Document}
    (h : files.readDocument s = .ok doc) :
    ∃ s, Document.ofJson s = .ok doc ∨ Document.ofYaml s = .ok doc := by
  obtain ⟨content, -, hdoc⟩ := bind_eq_ok_iff.mp h
  refine ⟨content, ?_⟩
  unfold Document.ofFileText at hdoc
  split_ifs at hdoc
  · exact Or.inl hdoc
  · exact Or.inr hdoc

/-- A command that only prints gives the registry as it was. -/
theorem RegistryCommand.eq_of_not_changes (h : command.changes = false)
    (hok : command.run text newId compiler format files r = .ok (output, r')) : r' = r := by
  have hprint : ∀ {name : String} {doc : Option Document},
      RegistryCommand.run.print format name doc r = .ok (output, r') → r' = r := by
    intro name doc h
    cases doc with
    | none => cases h
    | some doc => exact (Prod.mk.inj (Except.ok.inj h)).2.symm
  cases command with
  | infos => exact (Prod.mk.inj (Except.ok.inj hok)).2.symm
  | document name revision =>
    cases revision <;>
    · obtain ⟨doc, -, hok⟩ := bind_eq_ok_iff.mp hok
      exact hprint hok
  | draft name =>
    obtain ⟨doc, -, hok⟩ := bind_eq_ok_iff.mp hok
    exact hprint hok
  | _ => cases h

/-- The operation that a command carries out, if it comes to that. -/
def RegistryCommand.operation? (newId : String) (compiler : Compiler) (files : Files) (r : Registry) :
    RegistryCommand → Option Registry.Operation
  | addInfo name description => some (.addInfo newId name description)
  | updateInfo name description active => (r.info? name).map fun info =>
    .updateInfo name (description.getD info.description) (active.getD info.active)
  | addSchema path remark =>
    (files.readDocument path).toOption.map fun doc => .addSchema doc remark
  | saveDraft path remark =>
    (files.readDocument path).toOption.map fun doc => .saveDraft doc remark
  | publish name => some (.publish name compiler)
  | infos | document .. | draft .. => none

theorem RegistryCommand.isSubmitted_of_operation? {op : Registry.Operation}
    (h : command.operation? newId compiler files r = some op) : op.IsSubmitted := by
  have hread : ∀ {s : String} {doc : Document}, (files.readDocument s).toOption = some doc →
      ∃ s, Document.ofJson s = .ok doc ∨ Document.ofYaml s = .ok doc := by
    intro s doc h
    exact exists_of_readDocument (toOption_eq_some_iff.mp h)
  cases command with
  | addInfo name description =>
    obtain rfl := Option.some.inj h
    trivial
  | updateInfo name description active =>
    obtain ⟨info, -, rfl⟩ := Option.map_eq_some_iff.mp h
    trivial
  | addSchema path remark =>
    obtain ⟨doc, hdoc, rfl⟩ := Option.map_eq_some_iff.mp h
    exact hread hdoc
  | saveDraft path remark =>
    obtain ⟨doc, hdoc, rfl⟩ := Option.map_eq_some_iff.mp h
    exact hread hdoc
  | publish name =>
    obtain rfl := Option.some.inj h
    trivial
  | _ => cases h

theorem Registry.snd_run_singleton (text : DefinitionText) (r : Registry)
    (op : Registry.Operation) : (r.run text .memory [op]).2 =
      ((r.apply text .memory op).map Prod.snd).toOption.getD r := by
  change (r.step text .memory op).2 = _
  rw [Registry.step]
  cases r.apply text .memory op <;> rfl

/-- The registry that comes of a command is that which comes of its operation. -/
theorem RegistryCommand.registry_run (text : DefinitionText) (newId : String) (compiler : Compiler)
    (format : Format) (files : Files) (r : Registry) (command : RegistryCommand) :
    ((command.run text newId compiler format files r).map Prod.snd).toOption.getD r =
      (r.run text .memory (command.operation? newId compiler files r).toList).2 := by
  cases command with
  | addInfo name description =>
    rw [run, operation?, Option.toList_some, Registry.snd_run_singleton, Registry.apply]
    cases r.addInfo newId name description <;> rfl
  | updateInfo name description active =>
    rw [run, operation?]
    cases r.info? name with
    | none => rfl
    | some info =>
      simp only [Option.map_some, Option.toList_some, Registry.snd_run_singleton, Registry.apply]
      cases r.updateInfo name (description.getD info.description) (active.getD info.active) <;> rfl
  | addSchema path remark =>
    rw [run, operation?]
    cases files.readDocument path with
    | error e => rfl
    | ok doc =>
      change _ = (r.run text .memory [.addSchema doc remark]).2
      simp only [Registry.snd_run_singleton, Registry.apply, bind, Except.bind]
      cases r.addSchema text doc remark <;> rfl
  | saveDraft path remark =>
    rw [run, operation?]
    cases files.readDocument path with
    | error e => rfl
    | ok doc =>
      change _ = (r.run text .memory [.saveDraft doc remark]).2
      simp only [Registry.snd_run_singleton, Registry.apply, bind, Except.bind]
      cases r.saveDraft text doc remark <;> rfl
  | publish name =>
    rw [run, operation?, Option.toList_some, Registry.snd_run_singleton, Registry.apply]
    cases r.publish text name compiler <;> rfl
  | infos => rfl
  | document name revision =>
    cases hok : (document name revision).run text newId compiler format files r with
    | error e => rfl
    | ok result => exact eq_of_not_changes rfl hok
  | draft name =>
    cases hok : (draft name).run text newId compiler format files r with
    | error e => rfl
    | ok result => exact eq_of_not_changes rfl hok

/-- A command is carried out on a registry that has been opened, which is then closed. -/
theorem Invocation.exists_runOn (i : Invocation) (text : DefinitionText) (newId : String)
    (compiler : Compiler) (command : RegistryCommand) (h : Hosts path access place r files)
    (hr : files.HoldsAt place r) : ∃ files',
      (i.runOn text newId compiler command ⟨r, some ⟨place, true⟩⟩).run.run files =
        ((command.run text newId compiler i.format files r).map Prod.fst, files') ∧
      Tended place files files' ∧ files'.HoldsAt place
        (((command.run text newId compiler i.format files r).map Prod.snd).toOption.getD r) := by
  rw [runOn, Work.bind_of_ok (x := get) rfl]
  cases hok : command.run text newId compiler i.format files r with
  | error e =>
    obtain ⟨closed, hclose, htended, hholds⟩ := RegistryFile.exists_close h hr
    refine ⟨closed, ?_, htended, hholds⟩
    exact Work.bind_of_ok hclose
  | ok result =>
    obtain ⟨output, r'⟩ := result
    cases hchanges : command.changes with
    | true =>
      obtain ⟨written, hwrite, hwritten, hholds⟩ := RegistryFile.exists_write h r'
      obtain ⟨closed, hclose, htended, hholds'⟩ :=
        RegistryFile.exists_close (h.of_tended hwritten hholds) hholds
      have hsave : (OpenRegistry.save ⟨r, some ⟨place, true⟩⟩ r').run.run files =
          (.ok (), written) := hwrite
      refine ⟨closed, ?_, hwritten.trans htended, hholds'⟩
      simp only [if_true]
      rw [Work.bind_of_ok hsave]
      exact Work.bind_of_ok hclose
    | false =>
      have heq : r' = r := by
        exact RegistryCommand.eq_of_not_changes hchanges hok
      obtain ⟨closed, hclose, htended, hholds⟩ := RegistryFile.exists_close h hr
      refine ⟨closed, ?_, htended, heq ▸ hholds⟩
      simp only [Bool.false_eq_true, if_false]
      exact Work.bind_of_ok hclose

namespace Process

variable (p : Process)

/-- A registry is opened for a process, and other files read as before. -/
theorem exists_openRegistry
    (hlocation : Registry.Location.ofText? registryPath = some (.file path access false))
    (haccess : access ≠ .read) (h : Hosts path access place r p.files) :
    (p.invocation registryPath).openRegistry.run.run p.files =
      (.ok ⟨r, some ⟨place, true⟩⟩, p.opened registryPath) ∧
    Tended place p.files (p.opened registryPath) ∧ (p.opened registryPath).HoldsAt place r := by
  obtain ⟨opened, hload, htended, hholds⟩ := RegistryFile.exists_load h haccess
  have hopen : (p.invocation registryPath).openRegistry.run.run p.files =
      (.ok ⟨r, some ⟨place, true⟩⟩, opened) := by
    rw [Invocation.openRegistry, show (p.invocation registryPath).registryPath = registryPath from rfl,
      hlocation]
    exact hload
  rw [Process.opened, hopen]
  exact ⟨rfl, htended, hholds⟩

/-- A process reads its settings, opens a registry and carries out its command. -/
theorem run_eq_work (text : DefinitionText) (registryPath : String) : p.run text registryPath = (do
    let settings ← liftM ((p.invocation registryPath).settings p.files)
    let r ← (p.invocation registryPath).openRegistry
    (p.invocation registryPath).runOn text p.newId settings.compiler p.command r :
      Work String).run.run p.files :=
  Work.bind_of_ok (x := get) rfl

/-- A process prints what its command prints on the registry that the files have, and leaves files
that have the registry that comes of it. -/
theorem run_eq (text : DefinitionText)
    (hlocation : Registry.Location.ofText? registryPath = some (.file path access false))
    (haccess : access ≠ .read) (h : Hosts path access place r p.files) :
    (p.run text registryPath).1 = (p.call text registryPath r).1 ∧
    Hosts path access place (p.call text registryPath r).2 (p.run text registryPath).2 := by
  rw [p.run_eq_work, call, result]
  cases (p.invocation registryPath).settings p.files with
  | error e =>
    rw [Work.bind_of_error (x := liftM (Except.error e)) rfl]
    exact ⟨rfl, h⟩
  | ok settings =>
    obtain ⟨hopen, htended, hholds⟩ := p.exists_openRegistry hlocation haccess h
    obtain ⟨left, hrun, htended', hholds'⟩ := (p.invocation registryPath).exists_runOn text p.newId
      settings.compiler p.command (h.of_tended htended hholds) hholds
    rw [Work.bind_of_ok (x := liftM (Except.ok settings)) rfl, Work.bind_of_ok hopen, hrun]
    exact ⟨rfl, h.of_tended (htended.trans htended') hholds'⟩

/-- What a process reads from a file is what the file holds, unless it is one of the registry. -/
theorem readDocument_opened
    (hlocation : Registry.Location.ofText? registryPath = some (.file path access false))
    (haccess : access ≠ .read) (h : Hosts path access place r p.files) {s : String}
    (hs : ∀ q, p.files.locate (Bytes.ofText s) = some q → q ≠ place ∧ q ∉ reserved place) :
    (p.opened registryPath).readDocument s = p.files.readDocument s := by
  obtain ⟨-, htended, hholds⟩ := p.exists_openRegistry hlocation haccess h
  rw [readDocument, h.readText_eq htended (h.of_tended htended hholds) hs, readDocument]

/-- The operation that a process carries out, if it comes to that. -/
def operation? (registryPath : String) (r : Registry) : Option Registry.Operation := do
  let settings ← ((p.invocation registryPath).settings p.files).toOption
  p.command.operation? p.newId settings.compiler (p.opened registryPath) r

theorem operation?_addSchema {s remark : String} {settings : Settings} {doc : Document}
    (hcommand : p.command = .addSchema s remark)
    (hsettings : (p.invocation registryPath).settings p.files = .ok settings)
    (hread : (p.opened registryPath).readDocument s = .ok doc) :
    p.operation? registryPath r = some (.addSchema doc remark) := by
  have hop : p.operation? registryPath r = ((p.opened registryPath).readDocument s).toOption.map
      fun doc => .addSchema doc remark := by
    rw [operation?, hsettings, hcommand]
    rfl
  rw [hop, hread]
  rfl

theorem isSubmitted_of_operation? {op : Registry.Operation}
    (h : p.operation? registryPath r = some op) : op.IsSubmitted := by
  obtain ⟨settings, -, hop⟩ := Option.bind_eq_some_iff.mp h
  exact RegistryCommand.isSubmitted_of_operation? hop

/-- The registry that comes of a call is that which comes of the operation. -/
theorem registry_call (text : DefinitionText) (registryPath : String) (r : Registry) :
    (p.call text registryPath r).2 = (r.run text .memory (p.operation? registryPath r).toList).2 := by
  rw [call, result, operation?]
  cases (p.invocation registryPath).settings p.files with
  | error e => rfl
  | ok settings => exact p.command.registry_run text p.newId settings.compiler p.format _ r

/-- What is not given stays as it was, if the info of a name is changed. -/
theorem exists_result_updateInfo (text : DefinitionText) {name : String}
    {description : Option String} {active : Option Bool} {settings : Settings} {info : Info}
    (hcommand : p.command = .updateInfo name description active)
    (hsettings : (p.invocation registryPath).settings p.files = .ok settings)
    (hinfo : r.info? name = some info) :
    let changed : Info := { info with
      description := description.getD info.description, active := active.getD info.active }
    ∃ r', p.result text registryPath r = .ok (p.format.print changed.toData, r') ∧
      r'.info? name = some changed ∧ ∀ other, other ≠ name → r'.info? other = r.info? other := by
  intro changed
  obtain ⟨r', hupdate, hchanged, hother⟩ :=
    Registry.exists_updateInfo hinfo changed.description changed.active
  refine ⟨r', ?_, hchanged, hother⟩
  rw [result, hsettings, hcommand]
  refine bind_eq_ok_iff.mpr ⟨settings, rfl, ?_⟩
  rw [RegistryCommand.run, hinfo]
  exact bind_eq_ok_iff.mpr ⟨_, hupdate, rfl⟩

end Process

/-! ## Processes one after the other -/

/-- Files have changed, but not where the registry is that a path leads to. -/
structure Files.Untouched (path : Bytes) (place : Place) (before after : Files) : Prop where
  registryPlace?_put : (after.put place (.file .empty)).registryPlace? path =
    (before.put place (.file .empty)).registryPlace? path
  find? (p : Place) : p ∈ place :: reserved place → after.find? p = before.find? p
  /-- A registry that could be made still can be. -/
  isDirectory : after.isDirectory place.dropLast = before.isDirectory place.dropLast

/-- A process may find files as they have been left. -/
theorem Process.untouched_files {settingsPath : Option String} :
    Untouched path place files (Process.mk files newId settingsPath format command).files :=
  ⟨rfl, fun _ _ => rfl, rfl⟩

theorem Files.Hosts.of_untouched {before after : Files} (h : Hosts path access place r before)
    (hu : Untouched path place before after) : Hosts path access place r after where
  registryPlace?_put := hu.registryPlace?_put.trans h.registryPlace?_put
  holdsAt := by
    rw [HoldsAt, hu.find? place List.mem_cons_self, hu.isDirectory]
    exact h.holdsAt
  reserved p hp := by
    rw [isDirectory, hu.find? p (List.mem_cons_of_mem _ hp)]
    exact h.reserved p hp
  isName := h.isName

/-- Processes, the first one first. -/
abbrev Session := List Process

namespace Session

variable (text registryPath)

/-- Every process finds what the one before has left of the registry, and the first one finds it as
it is in a tree of files. -/
def Continues (path : Bytes) (place : Place) : Files → Session → Prop
  | _, [] => True
  | files, p :: ps => Untouched path place files p.files ∧
    Continues path place (p.run text registryPath).2 ps

/-- The files that are left after the last process. -/
def left : Files → Session → Files
  | files, [] => files
  | _, p :: ps => left (p.run text registryPath).2 ps

/-- What the processes print. -/
def outputs (ps : Session) : List (Except Error String) := ps.map fun p => (p.run text registryPath).1

/-- What is printed if the commands are carried out on one registry that is open, and the registry
that is open in the end. -/
def replay : Registry → Session → List (Except Error String) × Registry
  | r, [] => ([], r)
  | r, p :: ps =>
    let (output, r) := p.call text registryPath r
    let (outputs, r) := replay r ps
    (output :: outputs, r)

/-- The operations that the processes carry out. -/
def operations : Registry → Session → List Registry.Operation
  | _, [] => []
  | r, p :: ps =>
    (p.operation? registryPath r).toList ++ operations (p.call text registryPath r).2 ps

/-- What it means that a session works on one registry, as if it were open all the time. -/
structure Replays (path : Bytes) (access : Registry.Access) (place : Place) (r : Registry)
    (files : Files) (ps : Session) : Prop where
  /-- The same is printed, and the same commands fail. -/
  outputs : outputs text registryPath ps = (replay text registryPath r ps).1
  /-- The files that are left have the registry that is open in the end. -/
  hosts : Hosts path access place (replay text registryPath r ps).2
    (left text registryPath files ps)
  /-- It comes of operations on a registry in memory. -/
  registry : (replay text registryPath r ps).2 =
    (r.run text .memory (operations text registryPath r ps)).2
  /-- None of them opens it again, and the documents that are stored have been read from texts. -/
  isSubmitted (op : Registry.Operation) : op ∈ operations text registryPath r ps → op.IsSubmitted
  /-- What a process reads from a file is what the file holds, unless it is one of the registry. -/
  readDocument (p : Process) : p ∈ ps → ∀ s : String,
    (∀ q, p.files.locate (Bytes.ofText s) = some q → q ≠ place ∧ q ∉ reserved place) →
      (p.opened registryPath).readDocument s = p.files.readDocument s

variable {text registryPath}

theorem replays (hlocation : Registry.Location.ofText? registryPath = some (.file path access false))
    (haccess : access ≠ .read) {ps : Session} (h : Hosts path access place r files)
    (hps : Continues text registryPath path place files ps) :
    Replays text registryPath path access place r files ps := by
  induction ps generalizing r files with
  | nil => exact ⟨rfl, h, rfl, by simp [operations], by simp⟩
  | cons p ps ih =>
    obtain ⟨hu, hps⟩ := hps
    have hosts : Hosts path access place r p.files := h.of_untouched hu
    obtain ⟨hrun, hleft⟩ := p.run_eq text hlocation haccess hosts
    have hrest := ih hleft hps
    refine ⟨congrArg₂ List.cons hrun hrest.outputs, hrest.hosts, ?_, ?_, ?_⟩
    · rw [operations, Registry.run_append, ← p.registry_call]
      exact hrest.registry
    · rw [operations]
      refine List.forall_mem_append.mpr ⟨fun op hop => ?_, hrest.isSubmitted⟩
      exact p.isSubmitted_of_operation? (Option.mem_toList.mp hop)
    · rw [List.forall_mem_cons]
      exact ⟨fun s hs => p.readDocument_opened hlocation haccess hosts hs, hrest.readDocument⟩

end Session

end

/-- A registry in a file that is closed and opened again answers as one in memory that is not. So the
commands of a session on one registry, which is in a file that can be written, print and fail as if
the registry were open all the time. To change the info of a name keeps of it what is not given. -/
theorem replays_session (text : DefinitionText) :
    (∀ (r : Registry) (ops : List Registry.Operation), r.run text .file ops =
      (Registry.answersAmid ops (r.run text .memory (Registry.unopened ops)).1,
        (r.run text .memory (Registry.unopened ops)).2)) ∧
    (∀ (registryPath : String) (path : Bytes) (access : Registry.Access) (place : Place)
      (r : Registry) (files : Files) (ps : Session),
      Registry.Location.ofText? registryPath = some (.file path access false) → access ≠ .read →
      Hosts path access place r files → ps.Continues text registryPath path place files →
      ps.Replays text registryPath path access place r files) ∧
    ∀ (registryPath : String) (p : Process) (r : Registry) (name : String)
      (description : Option String) (active : Option Bool) (settings : Settings) (info : Info),
      p.command = .updateInfo name description active →
      (p.invocation registryPath).settings p.files = .ok settings → r.info? name = some info →
      let changed : Info := { info with
        description := description.getD info.description, active := active.getD info.active }
      ∃ r', p.call text registryPath r = (.ok (p.format.print changed.toData), r') ∧
        r'.info? name = some changed ∧ ∀ other, other ≠ name → r'.info? other = r.info? other := by
  refine ⟨Registry.run_file_eq text, ?_, ?_⟩
  · intro registryPath path access place r files ps hlocation haccess h hps
    exact Session.replays hlocation haccess h hps
  · intro registryPath p r name description active settings info hcommand hsettings hinfo changed
    obtain ⟨r', hresult, hchanged⟩ := p.exists_result_updateInfo text hcommand hsettings hinfo
    refine ⟨r', ?_, hchanged⟩
    rw [Process.call, hresult]
    rfl

/-- A name is registered, then it is made inactive, and then it is listed, by three processes. Between
two attempts to register a name a registry is opened again. -/
theorem replays_session_three_processes :
    let p : Process := { files := {}, newId := "i", command := .addInfo "n" "d" }
    let p' : Process :=
      { files := (p.run .yaml "formdb.db").2, newId := "j"
        command := .updateInfo "n" none (some false) }
    let p'' : Process :=
      { files := (p'.run .yaml "formdb.db").2, newId := "k", command := .infos }
    let info : Info := ⟨"i", "n", "d", true, none, false⟩
    Session.outputs .yaml "formdb.db" [p, p', p''] =
      [.ok (Format.yaml.print info.toData),
        .ok (Format.yaml.print { info with active := false }.toData),
        .ok (Format.yaml.print (.list [{ info with active := false }.toData]))] ∧
    (Registry.empty.run .yaml .file [.addInfo "i" "n" "d", .reopen, .addInfo "j" "n" ""]).1 =
      [.ok (.info info), .ok .done, .error (.infoExists "n")] ∧
    (Process.call .yaml "formdb.db" p' (p.call .yaml "formdb.db" .empty).2).1 =
      .ok (Format.yaml.print { info with active := false }.toData) := by
  intro p p' p'' info
  obtain ⟨hreopen, hsession, hupdate⟩ := replays_session .yaml
  have hosts : Hosts (Bytes.ofText "formdb.db") .create [Bytes.ofText "formdb.db"] .empty {} := {
    registryPlace?_put := by decide +kernel
    holdsAt := Or.inr ⟨rfl, by decide +kernel, by decide +kernel, rfl⟩
    reserved := by decide +kernel
    isName := by decide +kernel }
  have hcontinues : Session.Continues .yaml "formdb.db" (Bytes.ofText "formdb.db")
      [Bytes.ofText "formdb.db"] {} [p, p', p''] :=
    ⟨Process.untouched_files, Process.untouched_files, Process.untouched_files, trivial⟩
  have h := hsession "formdb.db" _ .create _ .empty {} [p, p', p''] (by decide +kernel) (by decide)
    hosts hcontinues
  refine ⟨h.outputs.trans ?_, ?_, ?_⟩
  · decide +kernel
  · rw [hreopen]
    decide +kernel
  · obtain ⟨r', hcall, -⟩ := hupdate "formdb.db" p' (p.call .yaml "formdb.db" .empty).2 "n" none
      (some false) {} info rfl rfl (by decide +kernel)
    rw [hcall]
    rfl

end DocTables
