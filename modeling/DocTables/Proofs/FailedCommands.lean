import DocTables.Proofs.LaterCommands
import DocTables.Proofs.Reopening

/-!
# Commands that fail

A call of the program that fails is harmless (`Call.Harmless`, `Call.harmless`), whatever it fails
by : its arguments, its settings, a document that it reads or compiles, its registry or what it asks
of that. It prints nothing, and every registry holds what it held before. Where there was no file
the empty registry may be left, and what had a reserved name beside the registry of the call may be
gone.

Later calls cannot tell that it has been made. If its registry had been written before and nothing
was left over beside it, the same stands everywhere (`Files.Spared.agreesOff_nil`), and all later
calls are answered alike (`Call.replies_congr`). In any case those are to which it makes no
difference in which way the same registry is found (`Call.AllUnconcerned`, `Call.replies_eq`).

Among the operations on a registry, one that fails may be left out
(`Registry.exists_run_of_failed`).
-/

namespace DocTables

open Files

/-! ## Operations -/

namespace Registry

variable {text : DefinitionText} {medium : Medium} {r : Registry} {op : Operation} {e : Error}

theorem step_of_failed (h : (r.step text medium op).1 = .error e) :
    r.step text medium op = (.error e, r) := by
  rw [step] at h ⊢
  cases hop : r.apply text medium op with
  | ok answer =>
    rw [hop] at h
    cases h
  | error e' =>
    rw [hop] at h
    cases h
    rfl

/-- An operation that fails may be left out. The others answer as they do without it, and the same
registry comes of them. -/
theorem exists_run_of_failed {before : List Operation} (after : List Operation)
    (h : ((r.run text medium before).2.step text medium op).1 = .error e) :
    ∃ answers answers' last, answers.length = before.length ∧
      r.run text medium (before ++ after) = (answers ++ answers', last) ∧
      r.run text medium (before ++ op :: after) = (answers ++ .error e :: answers', last) := by
  induction before generalizing r with
  | nil =>
    have hstep : r.step text medium op = (.error e, r) := step_of_failed h
    refine ⟨[], (r.run text medium after).1, (r.run text medium after).2, rfl, rfl, ?_⟩
    rw [List.nil_append, run_cons, hstep, List.nil_append]
  | cons first before ih =>
    obtain ⟨answers, answers', last, hlength, hrun, hrun'⟩ :=
      ih (r := (r.step text medium first).2) h
    refine ⟨(r.step text medium first).1 :: answers, answers', last, by simp [hlength], ?_, ?_⟩
    · rw [List.cons_append, run_cons, hrun, List.cons_append]
    · rw [List.cons_append, run_cons, hrun', List.cons_append]

end Registry

/-! ## Calls -/

/-- What comes of a call of the program. -/
inductive Reply where
  /-- The arguments ask for nothing to be done. -/
  | stopped (stop : CommandLine.Stop)
  | finished (result : Except Error String)
  deriving DecidableEq

namespace Reply

def exitCode : Reply → UInt32
  | finished (.ok _) => 0
  | finished (.error _) => 1
  | stopped .help => 0
  | stopped .misuse => 2

/-- What is printed, other than messages. -/
def printed : Reply → String
  | finished (.ok output) => output
  | finished (.error _) => ""
  | stopped .help => Program.usage
  | stopped .misuse => ""

def Fails (reply : Reply) : Prop := reply.exitCode ≠ 0

theorem fails_iff {reply : Reply} :
    reply.Fails ↔ reply = .stopped .misuse ∨ ∃ e, reply = .finished (.error e) := by
  rcases reply with (_ | _) | (_ | _) <;> simp [Fails, exitCode]

theorem printed_of_fails {reply : Reply} (h : reply.Fails) : reply.printed = "" := by
  rcases fails_iff.mp h with rfl | ⟨e, rfl⟩ <;> rfl

end Reply

/-- A call of the program. -/
structure Call where
  args : List String
  /-- The id that it gives to a name, if it registers one. -/
  newId : String

namespace Call

variable (text : DefinitionText)

/-- What comes of a call, and the files that it leaves. -/
def run (c : Call) (files : Files) : Reply × Files :=
  match CommandLine.parse c.args with
  | .error stop => (.stopped stop, files)
  | .ok i => (.finished (i.run text c.newId files).1, (i.run text c.newId files).2)

/-- What comes of calls, one after the other. -/
def replies : Files → List Call → List Reply
  | _, [] => []
  | files, c :: cs => (c.run text files).1 :: replies (c.run text files).2 cs

/-- The place of the registry that a call works on, if it is in a file. -/
def place? (c : Call) (files : Files) : Option Place :=
  match CommandLine.parse c.args with
  | .error _ => none
  | .ok i => i.place? files

/-- It makes no difference to a call on which of two trees of files it is made in which the same
registry is found. -/
def Unconcerned (c : Call) (q : Place) (files files' : Files) : Prop :=
  ∀ i, CommandLine.parse c.args = .ok i → i.Unconcerned q files files'

/-- It makes no difference to any of these calls, up to one from which on the trees are the same. -/
def AllUnconcerned (q : Place) : Files → Files → List Call → Prop
  | _, _, [] => True
  | files, files', c :: cs => AgreesOff [] files files' ∨
    c.Unconcerned q files files' ∧ AllUnconcerned q (c.run text files).2 (c.run text files').2 cs

/-! ## Calls on two trees -/

variable {text} {c : Call} {cs : List Call} {q : Place} {files files' : Files}

/-- Trees of files in which the same stands everywhere cannot be told apart. -/
theorem run_congr (text : DefinitionText) (c : Call) (h : AgreesOff [] files files') :
    (c.run text files').1 = (c.run text files).1 ∧
      AgreesOff [] (c.run text files).2 (c.run text files').2 := by
  rw [run, run]
  cases CommandLine.parse c.args with
  | error stop => exact ⟨rfl, h⟩
  | ok i =>
    obtain ⟨hresult, hagrees⟩ := i.run_congr text c.newId h
    exact ⟨congrArg Reply.finished hresult, hagrees⟩

theorem replies_congr (h : AgreesOff [] files files') :
    replies text files' cs = replies text files cs := by
  induction cs generalizing files files' with
  | nil => rfl
  | cons c cs ih =>
    obtain ⟨hreply, hagrees⟩ := run_congr text c h
    rw [replies, replies, hreply, ih hagrees]

theorem matches_run (h : Matches q files files') (hq : q ≠ []) (hc : c.Unconcerned q files files') :
    (c.run text files').1 = (c.run text files).1 ∧
      Matches q (c.run text files).2 (c.run text files').2 := by
  rw [run, run]
  cases hparse : CommandLine.parse c.args with
  | error stop => exact ⟨rfl, h⟩
  | ok i =>
    obtain ⟨hresult, hmatches⟩ := i.matches_run text c.newId h hq (hc i hparse)
    exact ⟨congrArg Reply.finished hresult, hmatches⟩

/-- A call that reads no other file, and that may make the file of its registry, is not concerned by
what becomes of that. -/
theorem unconcerned_of_create {i : Invocation} {path : Bytes}
    (hparse : CommandLine.parse c.args = .ok i) (hpaths : Program.paths i = [])
    (hlocation : Registry.Location.ofText? i.registryPath = some (.file path .create false))
    (hplace : c.place? files = some q) (hplace' : c.place? files' = some q) :
    c.Unconcerned q files files' := by
  intro i' hi'
  obtain rfl := Except.ok.inj (hparse.symm.trans hi')
  simp only [place?, hparse] at hplace hplace'
  refine ⟨by simp [Invocation.ReadsOff, hpaths], hplace'.trans hplace.symm, fun p hp => ?_⟩
  exact Or.inr ⟨Option.some.inj (hp.symm.trans hplace), path, .create, hlocation, by decide,
    Or.inl rfl⟩

theorem replies_eq (h : Matches q files files') (hq : q ≠ [])
    (hcs : AllUnconcerned text q files files' cs) :
    replies text files' cs = replies text files cs := by
  induction cs generalizing files files' with
  | nil => rfl
  | cons c cs ih =>
    rcases hcs with hsame | ⟨hc, hcs⟩
    · exact replies_congr hsame
    · obtain ⟨hreply, hmatches⟩ := matches_run h hq hc
      rw [replies, replies, hreply, ih hmatches hcs]

end Call

/-! ## What is spared -/

namespace Files

variable {files after : Files} {p q : Place} {r : Registry}

/-- A registry has been written in a place, and nothing is left over beside it. -/
structure Settled (files : Files) (q : Place) : Prop where
  file : ∃ bytes, files.find? q = some (.file bytes) ∧ Registry.isBlank bytes = false
  reserved (p : Place) (bytes : ByteArray) : p ∈ Files.reserved q →
    files.find? p ≠ some (.file bytes)

theorem Settled.not_blankAt (h : files.Settled q) : ¬files.BlankAt q := by
  obtain ⟨bytes, hfile, hblank⟩ := h.file
  rintro (hnone | ⟨bytes', hfile', hblank'⟩)
  · simp [hfile] at hnone
  · simp_all

/-- Nothing changes if such a registry is opened and closed. -/
theorem Spared.agreesOff_nil (h : Spared q files after) (hq : files.Settled q) :
    AgreesOff [] files after where
  here := h.here
  find? p _ := by
    by_cases hp : p = q
    · subst hp
      exact h.holds.resolve_right fun hblank => hq.not_blankAt hblank.1
    · refine (h.find? p hp).resolve_right ?_
      rintro ⟨hmem, -, bytes, hfile⟩
      exact hq.reserved p bytes hmem hfile
  isDirectory := h.isDirectory_eq

theorem HoldsAt.eq {r' : Registry} (h : files.HoldsAt p r) (h' : files.HoldsAt p r') : r' = r := by
  obtain ⟨bytes, hfile, hbytes⟩ := h
  obtain ⟨bytes', hfile', hbytes'⟩ := h'
  obtain rfl : bytes' = bytes := by simpa [hfile] using hfile'.symm
  exact Option.some.inj (hbytes'.symm.trans hbytes)

theorem BlankAt.holdsAt_iff (h : files.BlankAt p) :
    files.HoldsAt p r ↔ r = .empty ∧ files.find? p ≠ none := by
  rcases h with hnone | ⟨bytes, hfile, hblank⟩
  · simp [HoldsAt, hnone]
  · have hholds : files.HoldsAt p .empty := ⟨bytes, hfile, by rw [Registry.ofBytes?, if_pos hblank]⟩
    simp only [hfile, ne_eq, reduceCtorEq, not_false_eq_true, and_true]
    exact ⟨hholds.eq, fun hr => hr ▸ hholds⟩

/-- Every registry is as before, except that there may be an empty one where there was no file. -/
theorem Spared.holdsAt_iff (h : Spared q files after) (hp : p ∉ reserved q) :
    after.HoldsAt p r ↔ files.HoldsAt p r ∨
      p = q ∧ r = .empty ∧ files.find? q = none ∧ (after.find? q).isSome := by
  by_cases hpq : p = q
  · subst hpq
    rcases h.holds with heq | ⟨hblank, hholds⟩
    · rw [HoldsAt, HoldsAt, heq]
      simp +contextual
    · have hempty : after.HoldsAt p r ↔ r = .empty := ⟨hholds.eq, fun hr => hr ▸ hholds⟩
      have hsome : (after.find? p).isSome := by
        obtain ⟨bytes, hfile, -⟩ := hholds
        rw [hfile]
        rfl
      rw [hempty, hblank.holdsAt_iff]
      tauto
  · have hfind : after.find? p = files.find? p :=
      (h.find? p hpq).resolve_right fun hreserved => hp hreserved.1
    simp [HoldsAt, hfind, hpq]

end Files

/-! ## Calls that fail -/

namespace Call

variable {text : DefinitionText} {c : Call} {files : Files}

/-- What a call that fails leaves behind. -/
structure Harmless (text : DefinitionText) (c : Call) (files : Files) : Prop where
  printed : (c.run text files).1.printed = ""
  /-- Nothing changes unless the call has a registry in a file. -/
  eq_of_none : c.place? files = none → (c.run text files).2 = files
  /-- Every registry is as before, but for a file with a reserved name beside that of the call. -/
  holdsAt_iff (q p : Place) (r : Registry) : c.place? files = some q → p ∉ reserved q →
    ((c.run text files).2.HoldsAt p r ↔ files.HoldsAt p r ∨
      p = q ∧ r = .empty ∧ files.find? q = none ∧ ((c.run text files).2.find? q).isSome)
  /-- So is every other file and directory, and the same registry is found. -/
  spared (q : Place) : c.place? files = some q → Spared q files (c.run text files).2
  /-- If a registry has been written and nothing is left over beside it, all later calls are answered
  as if this one had not been made. -/
  replies_of_settled (q : Place) (later : List Call) : c.place? files = some q →
    files.Settled q → replies text (c.run text files).2 later = replies text files later
  /-- In any case so are later calls to which it makes no difference. -/
  replies_of_unconcerned (q : Place) (later : List Call) : c.place? files = some q →
    AllUnconcerned text q files (c.run text files).2 later →
      replies text (c.run text files).2 later = replies text files later

theorem spared_of_fails (hfails : (c.run text files).1.Fails) :
    match c.place? files with
    | none => (c.run text files).2 = files
    | some q => q ≠ [] ∧ Spared q files (c.run text files).2 := by
  rw [run] at hfails ⊢
  rw [place?]
  cases hparse : CommandLine.parse c.args with
  | error stop => rfl
  | ok i =>
    rw [hparse] at hfails
    obtain ⟨e, he⟩ : ∃ e, (i.run text c.newId files).1 = .error e := by
      simpa using Reply.fails_iff.mp hfails
    have hconfined := i.confined_run text c.newId files
    rw [Invocation.Confined] at hconfined
    dsimp only
    cases hplace : i.place? files with
    | none =>
      rw [hplace] at hconfined
      exact hconfined
    | some q =>
      rw [hplace] at hconfined
      exact ⟨Invocation.ne_nil_of_place? hplace, hconfined.2 e he⟩

theorem harmless (hfails : (c.run text files).1.Fails) : c.Harmless text files := by
  have hcall := spared_of_fails hfails
  have hspared : ∀ {q}, c.place? files = some q → q ≠ [] ∧ Spared q files (c.run text files).2 := by
    intro q hplace
    rwa [hplace] at hcall
  exact {
    printed := Reply.printed_of_fails hfails
    eq_of_none := fun hplace => by rwa [hplace] at hcall
    holdsAt_iff := fun q p r hplace hp => (hspared hplace).2.holdsAt_iff hp
    spared := fun q hplace => (hspared hplace).2
    replies_of_settled := fun q later hplace hq =>
      replies_congr ((hspared hplace).2.agreesOff_nil hq)
    replies_of_unconcerned := fun q later hplace hlater =>
      replies_eq (hspared hplace).2.matches (hspared hplace).1 hlater }

end Call

/-- A failure leaves nothing behind. An operation that fails may be left out of a row of operations,
and a call that fails is harmless. -/
theorem harmless_failures (text : DefinitionText) :
    (∀ (medium : Registry.Medium) (r : Registry) (before after : List Registry.Operation)
      (op : Registry.Operation) (e : Error),
      ((r.run text medium before).2.step text medium op).1 = .error e →
      ∃ answers answers' last, answers.length = before.length ∧
        r.run text medium (before ++ after) = (answers ++ answers', last) ∧
        r.run text medium (before ++ op :: after) = (answers ++ .error e :: answers', last)) ∧
    ∀ (c : Call) (files : Files), (c.run text files).1.Fails → c.Harmless text files := by
  refine ⟨?_, fun c files hfails => Call.harmless hfails⟩
  intro medium r before after op e h
  exact Registry.exists_run_of_failed after h

/-- A name cannot be registered twice, and no script is published of one that has no document. The
file of an empty registry stays behind, and yet the name can be registered afterwards, and then it
is listed. -/
theorem harmless_failures_two_attempts :
    (∃ answers answers' last, answers.length = 1 ∧
      Registry.empty.run .yaml .file ([.addInfo "i" "n" ""] ++ [.updateInfo "n" "d" false]) =
        (answers ++ answers', last) ∧
      Registry.empty.run .yaml .file
        ([.addInfo "i" "n" ""] ++ .addInfo "j" "n" "" :: [.updateInfo "n" "d" false]) =
        (answers ++ .error (.infoExists "n") :: answers', last)) ∧
    let c : Call := ⟨["publish", "n"], "i"⟩
    let later : List Call := [⟨["info-add", "n"], "j"⟩, ⟨["infos"], "k"⟩]
    (c.run .yaml {}).1.Fails ∧
      Call.replies .yaml (c.run .yaml {}).2 later = Call.replies .yaml {} later := by
  obtain ⟨hrun, hharmless⟩ := harmless_failures .yaml
  refine ⟨hrun .file .empty [.addInfo "i" "n" ""] [.updateInfo "n" "d" false] (.addInfo "j" "n" "")
    (.infoExists "n") (by decide +kernel), ?_⟩
  intro c later
  have hfails : (c.run .yaml {}).1.Fails := by
    rw [Reply.Fails]
    decide +kernel
  have hlocation : Registry.Location.ofText? defaultRegistryPath =
      some (.file (Bytes.ofText "formdb.db") .create false) := by decide +kernel
  have hadd : CommandLine.parse ["info-add", "n"] =
      .ok { command := .onRegistry (.addInfo "n" "") } := by decide +kernel
  have hinfos : CommandLine.parse ["infos"] = .ok { command := .onRegistry .infos } := by
    decide +kernel
  refine ⟨hfails, (hharmless c {} hfails).replies_of_unconcerned [Bytes.ofText "formdb.db"] later
    (by decide +kernel) (Or.inr ⟨?_, Or.inr ⟨?_, trivial⟩⟩)⟩
  · exact Call.unconcerned_of_create hadd rfl hlocation (by decide +kernel) (by decide +kernel)
  · exact Call.unconcerned_of_create hinfos rfl hlocation (by decide +kernel) (by decide +kernel)

/-- A registry is lost if its name is reserved beside that of another one, on which a command fails.
Where a command that fails has made a file, later ones find it that could not make it themselves. -/
theorem lost_beside_failure :
    let c : Call := ⟨["publish", "n"], "j"⟩
    let files := (Call.run .yaml ⟨["--registry", "formdb.db-journal", "info-add", "n"], "i"⟩ {}).2
    let later : List Call := [⟨["--registry", "formdb.db-journal", "infos"], "k"⟩]
    let later' : List Call := [⟨["--registry", "file:formdb.db?mode=rw", "infos"], "k"⟩]
    let info : Info := ⟨"i", "n", "", true, none, false⟩
    ((c.run .yaml files).1.Fails ∧
      Call.replies .yaml files later =
        [.finished (.ok (Format.yaml.print (.list [info.toData])))] ∧
      Call.replies .yaml (c.run .yaml files).2 later = [.finished (.ok "[]\n")]) ∧
    (c.run .yaml {}).1.Fails ∧
      Call.replies .yaml {} later' = [.finished (.error .database)] ∧
      Call.replies .yaml (c.run .yaml {}).2 later' = [.finished (.ok "[]\n")] := by
  intro c files later later' info
  rw [Reply.Fails, Reply.Fails]
  decide +kernel

end DocTables
