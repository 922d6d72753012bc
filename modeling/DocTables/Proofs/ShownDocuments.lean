import DocTables.Proofs.PrintedDocuments
import DocTables.Proofs.RegistryRuns
import DocTables.Proofs.Sessions
import DocTables.Proofs.Submissions

/-!
# Documents that are shown

The documents that a session stores have been read from texts and got ids and numbers
(`Registry.Log.exists_stamp_of_stored?`). So their definitions are read back as these documents, and
so is what a process prints that shows one of them, if it is put into a file that is named for its
format (`IsShown`). What is compiled from such a file is what is published.

A process that shows a definition prints the document that is read from it
(`Process.run_of_shown?`), and a process that publishes a name prints what the last definition of the
name is compiled to (`Process.run_publish`). For this a process must find the registry in a file that
it may write (`Process.MayWrite`). Where it may only read the file, it prints the same if it prints
anything (`Process.Finds`).
-/

namespace DocTables

open Files

/-! ## Commands -/

namespace RegistryCommand

/-- The command shows a definition. -/
def shows : RegistryCommand → Bool
  | document .. | draft .. => true
  | _ => false

/-- The definition that a command shows. -/
def shown? (r : Registry) : RegistryCommand → Option Definition
  | document name (some revision) => r.definition? name revision
  | document name none => r.last? name
  | draft name => r.definition? name draftRevision
  | _ => none

end RegistryCommand

section

variable {text : DefinitionText} {registryPath : String} {r : Registry} {d : Definition}
  {doc : Document}

namespace RegistryCommand

variable {command : RegistryCommand} (newId : String) (compiler : Compiler) (format : Format)
  (files : Files)

/-- What a command shows is read from a definition and printed. -/
theorem run_eq_of_shows (h : command.shows) : ∃ name,
    command.run text newId compiler format files r =
      (Registry.readDefinition text (command.shown? r)).bind fun doc => run.print format name doc r := by
  cases command with
  | document name revision => cases revision <;> exact ⟨name, rfl⟩
  | draft name => exact ⟨name, rfl⟩
  | _ => cases h

theorem shows_of_shown? (h : command.shown? r = some d) : command.shows := by
  cases command <;> first | rfl | cases h

theorem run_of_shown? (h : command.shown? r = some d) (hread : text.read d.text = .ok doc) :
    command.run text newId compiler format files r = .ok (format.print doc.toData, r) := by
  obtain ⟨name, hrun⟩ := run_eq_of_shows newId compiler format files (shows_of_shown? h)
  have hd : Registry.readDefinition text (some d) = .ok (some doc) := congrArg (Except.map some) hread
  rw [hrun, h, hd]
  rfl

/-- If something is printed, a definition is shown. -/
theorem exists_shown?_of_run (h : command.shows) {output : String} {r' : Registry}
    (hok : command.run text newId compiler format files r = .ok (output, r')) :
    ∃ d, command.shown? r = some d := by
  obtain ⟨name, hrun⟩ := run_eq_of_shows newId compiler format files h
  rw [hrun] at hok
  cases hshown : command.shown? r with
  | none =>
    rw [hshown] at hok
    cases hok
  | some d => exact ⟨d, rfl⟩

/-- What is shown is a definition of the registry. -/
theorem mem_of_shown? (h : command.shown? r = some d) : d ∈ r.definitions := by
  cases command with
  | document name revision =>
    cases revision with
    | none => exact (Registry.mem_revisions.mp (Definition.revision_le_of_highest? h).1).1
    | some revision => exact List.mem_of_find?_eq_some h
  | draft name => exact List.mem_of_find?_eq_some h
  | _ => cases h

/-- What is published is what the last definition is compiled to. -/
theorem map_run_publish {name : String} (hlast : r.last? name = some d)
    (hread : text.read d.text = .ok doc) :
    ((publish name).run text newId compiler format files r).map Prod.fst = compiler.compile doc := by
  have hdoc : r.document text name = .ok (some doc) := by
    rw [Registry.document, hlast]
    exact congrArg (Except.map some) hread
  simp only [run, Registry.publish, hdoc, bind, Except.bind]
  cases compiler.compile doc <;> rfl

end RegistryCommand

/-- What is printed with an open registry, the command prints on this registry. -/
theorem Invocation.exists_of_runOn (i : Invocation) {newId : String} {compiler : Compiler}
    {command : RegistryCommand} {o : OpenRegistry} {files files' : Files} {output : String}
    (hok : (i.runOn text newId compiler command o).run.run files = (.ok output, files')) :
    ∃ r', command.run text newId compiler i.format files o.registry = .ok (output, r') := by
  rw [runOn, Work.bind_of_ok (x := get) rfl] at hok
  cases hrun : command.run text newId compiler i.format files o.registry with
  | error e =>
    rw [hrun] at hok
    obtain ⟨-, closed, -, hok⟩ := Work.exists_of_bind hok
    cases hok
  | ok result =>
    obtain ⟨printed, r'⟩ := result
    refine ⟨r', ?_⟩
    simp only [hrun] at hok
    cases hchanges : command.changes with
    | true =>
      simp only [hchanges, if_true] at hok
      obtain ⟨-, saved, -, hok⟩ := Work.exists_of_bind hok
      obtain ⟨-, closed, -, hok⟩ := Work.exists_of_bind hok
      cases hok
      rfl
    | false =>
      simp only [hchanges, Bool.false_eq_true, if_false] at hok
      obtain ⟨-, closed, -, hok⟩ := Work.exists_of_bind hok
      cases hok
      rfl

/-- What a file is compiled to, if the settings can be read. -/
theorem Invocation.run_compile (i : Invocation) (text : DefinitionText) (newId : String)
    {files : Files} {s : String} (hcommand : i.command = .compile s)
    (hdoc : files.readDocument s = .ok doc) : (i.run text newId files).1 =
      (i.settings files).bind (·.compiler.compile doc) := by
  have hwork : i.run text newId files = (do
      let settings ← liftM (i.settings files)
      let doc ← liftM (files.readDocument s)
      liftM (settings.compiler.compile doc) : Work String).run.run files := by
    rw [run, work, Work.bind_of_ok (x := get) rfl, hcommand]
  rw [hwork]
  cases i.settings files with
  | error e =>
    rw [Work.bind_of_error (x := liftM (Except.error e)) rfl]
    rfl
  | ok settings =>
    rw [Work.bind_of_ok (x := liftM (Except.ok settings)) rfl, hdoc,
      Work.bind_of_ok (x := liftM (Except.ok doc)) rfl]
    change _ = settings.compiler.compile doc
    cases settings.compiler.compile doc <;> rfl

/-! ## Processes -/

namespace Process

/-- A process finds a registry in a file, whether it may write it or not. -/
def Finds (p : Process) (registryPath : String) (r : Registry) : Prop :=
  ∃ path access frozen place,
    Registry.Location.ofText? registryPath = some (.file path access frozen) ∧
    p.files.registryPlace? path = some place ∧ p.files.HoldsAt place r

/-- A process finds a registry and may write it. -/
def MayWrite (p : Process) (registryPath : String) (r : Registry) : Prop :=
  ∃ path access place, Registry.Location.ofText? registryPath = some (.file path access false) ∧
    access ≠ .read ∧ Hosts path access place r p.files

variable {p : Process}

/-- What a process prints, its command prints on the registry that it finds. -/
theorem exists_of_run (h : p.Finds registryPath r) {output : String}
    (hok : (p.run text registryPath).1 = .ok output) : ∃ settings found r',
      (p.invocation registryPath).settings p.files = .ok settings ∧
      p.command.run text p.newId settings.compiler p.format found r = .ok (output, r') := by
  obtain ⟨path, access, frozen, place, hlocation, hplace, hholds⟩ := h
  rw [p.run_eq_work] at hok
  cases hsettings : (p.invocation registryPath).settings p.files with
  | error e =>
    rw [hsettings, Work.bind_of_error (x := liftM (Except.error e)) rfl] at hok
    cases hok
  | ok settings =>
    rw [hsettings, Work.bind_of_ok (x := liftM (Except.ok settings)) rfl] at hok
    obtain ⟨o, opened, hopen, hrun⟩ := Work.exists_of_bind (Prod.ext hok rfl)
    rw [Invocation.openRegistry,
      show (p.invocation registryPath).registryPath = registryPath from rfl, hlocation] at hopen
    obtain rfl : o.registry = r := RegistryFile.registry_of_load hplace hholds hopen
    obtain ⟨r', hcommand⟩ := Invocation.exists_of_runOn _ hrun
    exact ⟨settings, opened, r', rfl, hcommand⟩

/-- What a process shows is the document of a definition. -/
theorem eq_of_shown? (h : p.Finds registryPath r) (hshown : p.command.shown? r = some d)
    (hread : text.read d.text = .ok doc) {output : String}
    (hok : (p.run text registryPath).1 = .ok output) : output = p.format.print doc.toData := by
  obtain ⟨settings, found, r', -, hcommand⟩ := exists_of_run h hok
  rw [RegistryCommand.run_of_shown? p.newId settings.compiler p.format found hshown hread]
    at hcommand
  exact (Prod.mk.inj (Except.ok.inj hcommand)).1.symm

/-- If a process prints something, it shows a definition of the registry. -/
theorem exists_shown? (h : p.Finds registryPath r) (hshows : p.command.shows) {output : String}
    (hok : (p.run text registryPath).1 = .ok output) :
    ∃ d ∈ r.definitions, p.command.shown? r = some d := by
  obtain ⟨settings, found, r', -, hcommand⟩ := exists_of_run h hok
  obtain ⟨d, hd⟩ := RegistryCommand.exists_shown?_of_run _ _ _ _ hshows hcommand
  exact ⟨d, RegistryCommand.mem_of_shown? hd, hd⟩

/-- What is shown is printed, if the settings can be read. -/
theorem run_of_shown? (h : p.MayWrite registryPath r) (hshown : p.command.shown? r = some d)
    (hread : text.read d.text = .ok doc) : (p.run text registryPath).1 =
      ((p.invocation registryPath).settings p.files).map fun _ => p.format.print doc.toData := by
  obtain ⟨path, access, place, hlocation, haccess, hosts⟩ := h
  rw [(p.run_eq text hlocation haccess hosts).1, call, result]
  cases (p.invocation registryPath).settings p.files with
  | error e => rfl
  | ok settings =>
    have hrun := RegistryCommand.run_of_shown? p.newId settings.compiler p.format
      (p.opened registryPath) hshown hread
    exact congrArg (Except.map Prod.fst) hrun

/-- What is published is what the last definition is compiled to, if the settings can be read. -/
theorem run_publish (h : p.MayWrite registryPath r) {name : String}
    (hcommand : p.command = .publish name) (hlast : r.last? name = some d)
    (hread : text.read d.text = .ok doc) : (p.run text registryPath).1 =
      ((p.invocation registryPath).settings p.files).bind (·.compiler.compile doc) := by
  obtain ⟨path, access, place, hlocation, haccess, hosts⟩ := h
  rw [(p.run_eq text hlocation haccess hosts).1, call, result, hcommand]
  cases (p.invocation registryPath).settings p.files with
  | error e => rfl
  | ok settings =>
    have hrun := RegistryCommand.map_run_publish p.newId settings.compiler p.format
      (p.opened registryPath) hlast hread
    exact hrun

/-- So it is in a file that may not be written, if something is printed all the same. -/
theorem compile_of_publish (h : p.Finds registryPath r) {name : String}
    (hcommand : p.command = .publish name) (hlast : r.last? name = some d)
    (hread : text.read d.text = .ok doc) {output : String}
    (hok : (p.run text registryPath).1 = .ok output) :
    ((p.invocation registryPath).settings p.files).bind (·.compiler.compile doc) = .ok output := by
  obtain ⟨settings, found, r', hsettings, hrun⟩ := exists_of_run h hok
  have hcompile := RegistryCommand.map_run_publish p.newId settings.compiler p.format found hlast
    hread
  rw [← hcommand, hrun] at hcompile
  rw [hsettings]
  exact hcompile.symm

end Process

end

/-! ## What is stored -/

namespace Registry

variable {L : Log} {r : Registry} {name : String} {revision : Int32} {doc : Document}

/-- A document that operations of a session have stored has been read from a text, but for its id
and its number. -/
theorem Log.exists_stamp_of_stored? (hL : ∀ op ∈ L, op.IsSubmitted)
    (h : L.stored? name revision = some doc) : ∃ s submitted id,
      (Document.ofJson s = .ok submitted ∨ Document.ofYaml s = .ok submitted) ∧
      doc = stamp id revision submitted := by
  obtain ⟨id, -, h⟩ := Option.bind_eq_some_iff.mp h
  obtain ⟨⟨submitted, remark⟩, hsubmitted, h⟩ := Option.bind_eq_some_iff.mp h
  obtain ⟨s, hs⟩ : ∃ s, Document.ofJson s = .ok submitted ∨ Document.ofYaml s = .ok submitted := by
    unfold Log.submitted? at hsubmitted
    split_ifs at hsubmitted
    · exact hL _ (Log.of_draft?_eq_some hsubmitted).1
    · exact hL _ (Log.of_mem_added (List.mem_of_getElem? hsubmitted)).1
  exact ⟨s, submitted, id, hs, (Option.some.inj h).symm⟩

end Registry

/-! ## Sessions -/

/-- What it means that a definition of a registry is shown as a document. -/
structure IsShown (r : Registry) (d : Definition) (doc : Document) : Prop where
  documentAt : r.documentAt .yaml d.name d.revision = .ok (some doc)
  /-- The document is printed if the definition is asked for and the settings can be read. -/
  run (p : Process) (registryPath : String) : p.MayWrite registryPath r →
    p.command.shown? r = some d → (p.run .yaml registryPath).1 =
      ((p.invocation registryPath).settings p.files).map fun _ => p.format.print doc.toData
  /-- Nothing else is printed, also where the file may not be written. -/
  eq_print (p : Process) (registryPath output : String) : p.Finds registryPath r →
    p.command.shown? r = some d → (p.run .yaml registryPath).1 = .ok output →
    output = p.format.print doc.toData
  /-- What is printed is read as the document, in a file that is named for the format. -/
  ofFileText (format : Format) (file : String) : (Document.isJsonPath file ↔ format = .json) →
    (format = .yaml → Yaml.ReadsBack doc.toData.sorted) →
    Document.ofFileText file (format.print doc.toData) = .ok doc
  /-- What such a file is compiled to is what is published, with the same settings. -/
  compile (q : Process) (registryPath : String) (i : Invocation) (newId : String) (found : Files)
    (format : Format) (file : String) : r.last? d.name = some d → q.command = .publish d.name →
    i.command = .compile file → (Document.isJsonPath file ↔ format = .json) →
    (format = .yaml → Yaml.ReadsBack doc.toData.sorted) →
    found.readText file = .ok (format.print doc.toData) →
    i.settings found = (q.invocation registryPath).settings q.files →
    (q.MayWrite registryPath r → (i.run .yaml newId found).1 = (q.run .yaml registryPath).1) ∧
    ∀ output, q.Finds registryPath r → (q.run .yaml registryPath).1 = .ok output →
      (i.run .yaml newId found).1 = .ok output

/-- A definition is shown as the document that has been stored, if its data are read back. -/
theorem IsShown.of_stored? {L : Registry.Log} {r : Registry} {d : Definition} {doc : Document}
    (hL : ∀ op ∈ L, op.IsSubmitted) (hd : r.definition? d.name d.revision = some d)
    (hdoc : L.stored? d.name d.revision = some doc) (htext : d.text = doc.toYaml)
    (hk : Yaml.ReadsBack doc.toData) : IsShown r d doc := by
  obtain ⟨s, submitted, id, hs, rfl⟩ := Registry.Log.exists_stamp_of_stored? hL hdoc
  have hread : DefinitionText.yaml.read d.text = .ok (Registry.stamp id d.revision submitted) := by
    rw [htext]
    exact Registry.read_write_stamp hs hk
  obtain ⟨hunambiguous, hdepth⟩ := Document.settled_of_submitted hs
  have hdepth' : (Registry.stamp id d.revision submitted).toData.depth ≤ Yaml.maxDepth := by
    rw [Document.depth_toData] at hdepth ⊢
    exact hdepth
  have hfile : ∀ (format : Format) (file : String), (Document.isJsonPath file ↔ format = .json) →
      (format = .yaml → Yaml.ReadsBack (Registry.stamp id d.revision submitted).toData.sorted) →
      Document.ofFileText file (format.print (Registry.stamp id d.revision submitted).toData) =
        .ok (Registry.stamp id d.revision submitted) :=
    fun format file hpath hsorted => Document.ofFileText_print hpath hunambiguous hdepth' hsorted
  refine ⟨?_, fun p registryPath h hshown => p.run_of_shown? h hshown hread,
    fun p registryPath output h hshown hok => p.eq_of_shown? h hshown hread hok, hfile, ?_⟩
  · rw [Registry.documentAt, hd]
    exact congrArg (Except.map some) hread
  · intro q registryPath i newId found format file hlast hcommand hi hpath hsorted hfound hsettings
    have hcompiled : found.readDocument file = .ok (Registry.stamp id d.revision submitted) := by
      rw [readDocument, hfound]
      exact hfile format file hpath hsorted
    rw [i.run_compile .yaml newId hi hcompiled, hsettings]
    exact ⟨fun h => (q.run_publish h hcommand hlast hread).symm,
      fun output h hok => q.compile_of_publish h hcommand hlast hread hok⟩

/-- Whatever processes have done with a registry, one after the other, each of its definitions can be
shown. What is printed can be put into a file, where it is read as the document that is stored, and
compiled to what is published. Nothing else is shown. -/
theorem isShown_session (registryPath : String) (path : Bytes) (access : Registry.Access)
    (place : Place) (files : Files) (ps : Session)
    (hlocation : Registry.Location.ofText? registryPath = some (.file path access false))
    (haccess : access ≠ .read) (h : Hosts path access place .empty files)
    (hps : ps.Continues .yaml registryPath path place files) :
    let r := (ps.replay .yaml registryPath .empty).2
    let L := Registry.empty.log .yaml .memory (ps.operations .yaml registryPath .empty)
    (∀ p : Process, Untouched path place (ps.left .yaml registryPath files) p.files →
      p.MayWrite registryPath r) ∧
    (∀ d ∈ r.definitions, r.definition? d.name d.revision = some d ∧
      ∃ doc, L.stored? d.name d.revision = some doc ∧ d.text = doc.toYaml ∧
        (Yaml.ReadsBack doc.toData → IsShown r d doc)) ∧
    ∀ (p : Process) (registryPath output : String), p.Finds registryPath r → p.command.shows →
      (p.run .yaml registryPath).1 = .ok output →
      ∃ d ∈ r.definitions, p.command.shown? r = some d := by
  intro r L
  have hreplays := Session.replays hlocation haccess h hps
  refine ⟨fun p hu => ?_, fun d hd => ?_, fun p registryPath output h hshows hok =>
    p.exists_shown? h hshows hok⟩
  · exact ⟨path, access, place, hlocation, haccess, hreplays.hosts.of_untouched hu⟩
  have hreopen : .reopen ∉ ps.operations .yaml registryPath .empty := hreplays.isSubmitted .reopen
  have hL : ∀ op ∈ L, op.IsSubmitted :=
    fun op hop => hreplays.isSubmitted op (Registry.mem_of_mem_log hop)
  have hfollows : Registry.Follows .yaml L r d.name := by
    rw [show r = _ from hreplays.registry]
    exact Registry.follows_run .yaml (Or.inr hreopen) d.name
  have hfind : r.definition? d.name d.revision = some d :=
    hfollows.definition?_eq.trans (hfollows.definition?_of_mem hd rfl)
  obtain ⟨doc, hdoc, htext⟩ := hfollows.exists_stored?_of_mem hd rfl
  exact ⟨hfind, doc, hdoc, htext, IsShown.of_stored? hL hfind hdoc htext⟩

/-- A document that is added from a file in YAML is shown in JSON, and what is printed is compiled to
what is published. -/
theorem isShown_session_one_revision :
    let files : Files := { entries := [([Bytes.ofText "f.yaml"],
      .file "name: n\nitems:\n- type: Str\n  name: t\n".toUTF8)] }
    let p : Process := { files, newId := "i", command := .addInfo "n" "" }
    let p' : Process :=
      { files := (p.run .yaml "formdb.db").2, newId := "j", command := .addSchema "f.yaml" "" }
    let left := (p'.run .yaml "formdb.db").2
    let q : Process :=
      { files := left, newId := "k", format := .json, command := .document "n" none }
    let q' : Process := { files := left, newId := "k", command := .publish "n" }
    let doc : Document :=
      { id := "i", name := "n", revision := 1, items := [.scalar (.string none) "t" {}] }
    let found : Files :=
      { entries := [([Bytes.ofText "g.json"], .file (Format.json.print doc.toData).toUTF8)] }
    let i : Invocation := { command := .compile "g.json" }
    (q.run .yaml "formdb.db").1 = .ok (Format.json.print doc.toData) ∧
    Document.ofFileText "g.json" (Format.json.print doc.toData) = .ok doc ∧
    (i.run .yaml "" found).1 = (q'.run .yaml "formdb.db").1 := by
  intro files p p' left q q' doc found i
  have hosts : Hosts (Bytes.ofText "formdb.db") .create [Bytes.ofText "formdb.db"] .empty files := {
    registryPlace?_put := by decide +kernel
    holdsAt := Or.inr ⟨rfl, by decide +kernel, by decide +kernel, rfl⟩
    reserved := by decide +kernel
    isName := by decide +kernel }
  have hcontinues : Session.Continues .yaml "formdb.db" (Bytes.ofText "formdb.db")
      [Bytes.ofText "formdb.db"] files [p, p'] :=
    ⟨Process.untouched_files, Process.untouched_files, trivial⟩
  have hlocation : Registry.Location.ofText? "formdb.db" =
      some (.file (Bytes.ofText "formdb.db") .create false) := by decide +kernel
  have haccess : Registry.Access.create ≠ .read := by decide
  have hreplays := Session.replays hlocation haccess hosts hcontinues
  have hread : (p'.opened "formdb.db").readDocument "f.yaml" =
      .ok { doc with id := "", revision := 0 } := by
    refine (hreplays.readDocument p' (by simp) "f.yaml" ?_).trans ?_
    · decide +kernel
    · decide +kernel
  let submitted : Document := { doc with id := "", revision := 0 }
  let ops : List Registry.Operation := [.addInfo "i" "n" "", .addSchema submitted ""]
  have hops : Session.operations .yaml "formdb.db" .empty [p, p'] = ops := by
    have hinfo : p.operation? "formdb.db" .empty = some (.addInfo "i" "n" "") := rfl
    have hadd : ∀ r, p'.operation? "formdb.db" r = some (.addSchema submitted "") :=
      fun r => p'.operation?_addSchema rfl rfl hread
    rw [Session.operations, Session.operations, Session.operations, hinfo, hadd]
    rfl
  have hr : (Session.replay .yaml "formdb.db" .empty [p, p']).2 =
      (Registry.empty.run .yaml .memory ops).2 := by
    rw [hreplays.registry, hops]
  obtain ⟨hwrite, hshown, -⟩ := isShown_session "formdb.db" _ .create _ files [p, p'] hlocation
    haccess hosts hcontinues
  rw [hr, hops] at hshown
  rw [hr, Session.left, Session.left, Session.left] at hwrite
  let d := Registry.definitionOf .yaml "i" 1 submitted ""
  have hd : d ∈ (Registry.empty.run .yaml .memory ops).2.definitions := by decide +kernel
  have hlast : (Registry.empty.run .yaml .memory ops).2.last? "n" = some d := by decide +kernel
  have hstored : (Registry.empty.log .yaml .memory ops).stored? "n" 1 = some doc := by
    decide +kernel
  obtain ⟨-, doc', hdoc, -, h⟩ := hshown d hd
  obtain rfl : doc = doc' := Option.some.inj (hstored.symm.trans hdoc)
  have hdocument := h (by decide +kernel)
  have hq := hwrite q Process.untouched_files
  have hq' := hwrite q' Process.untouched_files
  have hpath : Document.isJsonPath "g.json" ↔ Format.json = .json := by decide +kernel
  have hsettings : i.settings found = .ok {} := rfl
  have hsettings' : (q'.invocation "formdb.db").settings q'.files = .ok {} := rfl
  refine ⟨hdocument.run q "formdb.db" hq hlast,
    hdocument.ofFileText .json "g.json" hpath (by decide), ?_⟩
  exact (hdocument.compile q' "formdb.db" i "" found .json "g.json" hlast rfl rfl hpath (by decide)
    (by decide +kernel) (hsettings.trans hsettings'.symm)).1 hq'

end DocTables
