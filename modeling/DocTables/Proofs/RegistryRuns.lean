import DocTables.Proofs.RegistryLog

/-!
# A registry is what its log says

`Registry.log` is the log of a run. `Registry.Follows` says that a registry knows the id of a name and
holds the definitions of it as a log says, and no others.

An operation that succeeds keeps it (`Registry.Follows.cons`), so it holds after every run that begins
with the empty registry (`Registry.follows_run`), whether the operations succeed or fail. Nothing is
asked of the text of the definitions : what is stored does not depend on what is read. So a document
that is asked for is what is read of the one in the log (`Registry.Follows.documentAt_eq`,
`Registry.Follows.document_eq`).
-/

namespace DocTables.Registry

/-! ## The log of a run -/

variable (text : DefinitionText) (medium : Medium)

/-- The operations of a run that succeed, the last one first. -/
def log (r : Registry) (ops : List Operation) : Log :=
  ((ops.zip (r.run text medium ops).1).filterMap fun (op, answer) =>
    if answer.isOk then some op else none).reverse

variable {text medium}
variable {r r' : Registry} {op : Operation} {ops : List Operation} {a : Answer} {e : Error}

theorem run_cons_of_ok (ops : List Operation) (h : r.apply text medium op = .ok (a, r')) :
    (r.run text medium (op :: ops)).2 = (r'.run text medium ops).2 ∧
    r.log text medium (op :: ops) = r'.log text medium ops ++ [op] := by
  simp [log, run, step, h, Except.isOk, Except.toBool]

theorem run_cons_of_error (ops : List Operation) (h : r.apply text medium op = .error e) :
    (r.run text medium (op :: ops)).2 = (r.run text medium ops).2 ∧
    r.log text medium (op :: ops) = r.log text medium ops := by
  simp [log, run, step, h, Except.isOk, Except.toBool]

/-- If all operations succeed, the log holds them all. -/
theorem log_eq_reverse (h : ∀ answer ∈ (r.run text medium ops).1, answer.isOk) :
    r.log text medium ops = ops.reverse := by
  induction ops generalizing r with
  | nil => rfl
  | cons op ops ih =>
    simp only [run, List.forall_mem_cons] at h
    cases hok : r.apply text medium op with
    | error e => simp [step, hok, Except.isOk, Except.toBool] at h
    | ok result =>
      obtain ⟨a, r'⟩ := result
      rw [(run_cons_of_ok ops hok).2, List.reverse_cons, ih]
      simpa [step, hok] using h.2

/-- Only operations of a run are in its log. -/
theorem mem_of_mem_log (h : op ∈ r.log text medium ops) : op ∈ ops := by
  obtain ⟨⟨op', answer⟩, hmem, heq⟩ := List.mem_filterMap.mp (List.mem_reverse.mp h)
  dsimp only at heq
  split_ifs at heq
  obtain rfl := Option.some.inj heq
  exact (List.of_mem_zip hmem).1

/-- What every operation that succeeds keeps of a log and a registry, a run keeps. -/
theorem run_of_leads {P : Log → Registry → Prop} {L : Log}
    (hmedium : medium = .file ∨ .reopen ∉ ops)
    (hstep : ∀ {L r op r'}, P L r → Leads text r op r' → P (op :: L) r') (h : P L r) :
    P (r.log text medium ops ++ L) (r.run text medium ops).2 := by
  induction ops generalizing r L with
  | nil => exact h
  | cons op ops ih =>
    have hmedium' : medium = .file ∨ .reopen ∉ ops :=
      hmedium.imp_right fun hne hmem => hne (List.mem_cons_of_mem _ hmem)
    cases hok : r.apply text medium op with
    | error e =>
      obtain ⟨hrun, hlog⟩ := run_cons_of_error ops hok
      rw [hrun, hlog]
      exact ih hmedium' h
    | ok result =>
      obtain ⟨a, r'⟩ := result
      obtain ⟨hrun, hlog⟩ := run_cons_of_ok ops hok
      have hfile : op = .reopen → medium = .file := by
        rintro rfl
        exact hmedium.resolve_right fun hne => hne List.mem_cons_self
      rw [hrun, hlog, List.append_assoc, List.singleton_append]
      exact ih hmedium' (hstep h (leads_of_apply hfile hok))

/-- So it holds of the log of a run, if it holds when nothing has been done. -/
theorem log_of_leads {P : Log → Registry → Prop} (hmedium : medium = .file ∨ .reopen ∉ ops)
    (hstep : ∀ {L r op r'}, P L r → Leads text r op r' → P (op :: L) r') (h : P [] r) :
    P (r.log text medium ops) (r.run text medium ops).2 := by
  have hrun := run_of_leads hmedium hstep h
  rwa [List.append_nil] at hrun

/-! ## Registries that follow a log -/

/-- A registry knows of a name what a log says, the scripts left out. -/
structure Follows (text : DefinitionText) (L : Log) (r : Registry) (name : String) : Prop where
  /-- The name has its id. -/
  id_registration : (r.registration? name).map (·.id) = L.id? name
  /-- The rows that are no draft are the revisions, in their order. -/
  revisions : r.definitions.filter (fun d => d.name = name ∧ d.revision ≠ draftRevision) =
    L.revisions text name
  /-- The row of the draft is that of the draft that was saved last. -/
  draft : r.definitions.filter (fun d => d.name = name ∧ d.revision = draftRevision) =
    (L.definition? text name draftRevision).toList
  /-- Nothing has been stored under a name that is not registered. -/
  unregistered : L.id? name = none → L.added name = [] ∧ L.draft? name = none
  /-- There is a number for every revision. -/
  length_lt : (L.added name).length < 2 ^ 31

theorem follows_empty (name : String) : Follows text [] empty name where
  id_registration := rfl
  revisions := rfl
  draft := rfl
  unregistered _ := ⟨rfl, rfl⟩
  length_lt := Nat.two_pow_pos 31

namespace Follows

variable {L : Log} {name : String} {revision : Int32}

theorem pos_of_mem_revisions (h : Follows text L r name) {d : Definition}
    (hd : d ∈ L.revisions text name) : 0 < d.revision := by
  obtain ⟨i, hi⟩ := List.mem_iff_getElem?.mp hd
  obtain ⟨hlt, -⟩ := List.getElem?_eq_some_iff.mp hi
  have hle : (L.revisions text name).length ≤ (L.added name).length := Log.length_revisions_le
  have hlength := h.length_lt
  rw [Log.revision_getElem_revisions hi]
  exact (Log.ofNat_succ (by omega)).1

/-- The revisions of the registry are those of the log. -/
theorem revisions_eq (h : Follows text L r name) : r.revisions name = L.revisions text name := by
  have hfilter : r.revisions name = (L.revisions text name).filter fun d => 0 < d.revision := by
    rw [← h.revisions, List.filter_filter]
    refine List.filter_congr fun d _ => ?_
    have hdraft : 0 < d.revision → d.revision ≠ draftRevision := by
      rintro hpos heq
      rw [heq] at hpos
      exact absurd hpos (by decide)
    rw [← Bool.decide_and, decide_eq_decide]
    tauto
  rw [hfilter, List.filter_eq_self]
  exact fun d hd => decide_eq_true (h.pos_of_mem_revisions hd)

/-- The definition under a name and a number is that of the log. -/
theorem definition?_eq (h : Follows text L r name) :
    r.definition? name revision = L.definition? text name revision := by
  have hfind : r.definition? name revision =
      r.definitions.find? fun d => d.name = name ∧ d.revision = revision := by
    simp [definition?, Rows.find?, Definition.key]
  rw [hfind]
  by_cases hdraft : revision = draftRevision
  · subst hdraft
    rw [← List.head?_filter, h.draft]
    simp
  have hrevisions : (r.definitions.find? fun d => d.name = name ∧ d.revision = revision) =
      (L.revisions text name).find? (·.revision = revision) := by
    rw [← h.revisions, List.find?_filter]
    congr 1
    funext d
    simp only [decide_eq_true_eq, decide_eq_decide]
    grind
  rw [hrevisions]
  by_cases hpos : 0 < revision
  · obtain ⟨i, hi, rfl⟩ := Log.exists_ofNat_succ hpos
    rw [Log.find?_revisions (h.length_lt) hi, Log.definition?_ofNat_succ hi]
  · have hnone : L.definition? text name revision = none := by
      simp [Log.definition?, Log.submitted?, hdraft, hpos]
    rw [hnone, List.find?_eq_none]
    rintro d hd heq
    rw [← of_decide_eq_true heq] at hpos
    exact hpos (h.pos_of_mem_revisions hd)

/-- Every row of the registry is that of the log. -/
theorem definition?_of_mem (h : Follows text L r name) {d : Definition} (hd : d ∈ r.definitions)
    (hname : d.name = name) : L.definition? text name d.revision = some d := by
  by_cases hdraft : d.revision = draftRevision
  · have hmem : d ∈ (L.definition? text name draftRevision).toList := by
      rw [← h.draft, List.mem_filter]
      exact ⟨hd, decide_eq_true ⟨hname, hdraft⟩⟩
    rw [hdraft]
    simpa using hmem
  · have hmem : d ∈ L.revisions text name := by
      rw [← h.revisions, List.mem_filter]
      exact ⟨hd, decide_eq_true ⟨hname, hdraft⟩⟩
    obtain ⟨i, hi⟩ := List.mem_iff_getElem?.mp hmem
    obtain ⟨hlt, -⟩ := List.getElem?_eq_some_iff.mp hi
    have hle : (L.revisions text name).length ≤ (L.added name).length := Log.length_revisions_le
    have hlength := h.length_lt
    rw [Log.revision_getElem_revisions hi, Log.definition?_ofNat_succ (by omega), hi]

/-- Every row of the registry is the text of a document that is stored. -/
theorem exists_stored?_of_mem (h : Follows text L r name) {d : Definition} (hd : d ∈ r.definitions)
    (hname : d.name = name) :
    ∃ doc, L.stored? name d.revision = some doc ∧ d.text = text.write doc :=
  Log.exists_stored?_of_definition? (h.definition?_of_mem hd hname)

/-- A name with documents has an id. -/
theorem exists_id?_of_added (h : Follows text L r name) (hadded : L.added name ≠ []) :
    ∃ id, L.id? name = some id :=
  Option.ne_none_iff_exists'.mp fun hnone => hadded (h.unregistered hnone).1

theorem last?_of_added_eq_nil (h : Follows text L r name) (hadded : L.added name = []) :
    r.last? name = none := by
  rw [last?, h.revisions_eq, Definition.highest?_eq_none_iff, ← List.length_eq_zero_iff]
  have hle : (L.revisions text name).length ≤ (L.added name).length := Log.length_revisions_le
  simpa [hadded] using hle

/-- The last revision of the registry is the one that was added last. -/
theorem last?_of_added_eq_append (h : Follows text L r name) {init : List (Document × String)}
    {s : Document × String} (hadded : L.added name = init ++ [s]) : ∃ id, L.id? name = some id ∧
      r.last? name = some (definitionOf text id (.ofNat (init.length + 1)) s.1 s.2) := by
  obtain ⟨id, hid⟩ := h.exists_id?_of_added (by simp [hadded])
  refine ⟨id, hid, ?_⟩
  have hlength := h.length_lt
  have hlt : init.length + 1 < 2 ^ 31 := by simpa [hadded] using hlength
  rw [last?, h.revisions_eq, Log.revisions, hid]
  simp only [hadded, List.mapIdx_concat]
  refine Definition.highest?_append_singleton fun d hd => ?_
  obtain ⟨i, hi, rfl⟩ := List.mem_mapIdx.mp hd
  have hi' : i + 1 < 2 ^ 31 := by omega
  simp only [definitionOf, Int32.lt_iff_toInt_lt, (Log.ofNat_succ hi').2.2,
    (Log.ofNat_succ hlt).2.2]
  omega

theorem latest?_eq (h : Follows text L r name) : r.latest? name = L.latest? name := by
  rcases List.eq_nil_or_concat (L.added name) with hadded | ⟨init, s, hadded⟩
  · rw [latest?, h.last?_of_added_eq_nil hadded]
    simp [Log.latest?, hadded]
  · rw [List.concat_eq_append] at hadded
    obtain ⟨id, -, hlast⟩ := h.last?_of_added_eq_append hadded
    rw [latest?, hlast]
    simp [Log.latest?, hadded, definitionOf]

/-- The number of the next revision, if there is one left. -/
theorem nextRevision_eq_ok_iff (h : Follows text L r name) : r.nextRevision name = .ok revision ↔
    (L.added name).length + 1 < 2 ^ 31 ∧ revision = .ofNat ((L.added name).length + 1) := by
  have hlength := h.length_lt
  have hlatest : ((r.latest? name).getD 0).toInt = (L.added name).length := by
    rw [h.latest?_eq, Log.latest?]
    split
    case isTrue hempty => simp [List.isEmpty_iff.mp hempty]
    case isFalse => exact Int32.toInt_ofNat_of_lt hlength
  have hnext : r.nextRevision name = .ok revision ↔
      Digits.int32? (((r.latest? name).getD 0).toInt + 1) = some revision := by
    unfold nextRevision
    split <;> simp_all
  rw [hnext, hlatest, Digits.int32?_eq_some_iff]
  constructor
  · intro hrevision
    have hlt := revision.toInt_lt
    have hsucc : (L.added name).length + 1 < 2 ^ 31 := by omega
    rw [← Int32.toInt_inj, (Log.ofNat_succ hsucc).2.2, hrevision]
    exact ⟨hsucc, rfl⟩
  · rintro ⟨hsucc, rfl⟩
    exact (Log.ofNat_succ hsucc).2.2

/-- The number of the last revision is that of all revisions. -/
theorem toInt_of_latest? (h : Follows text L r name) {n : Int32} (hn : L.latest? name = some n) :
    0 < n ∧ n.toInt = (L.added name).length := by
  unfold Log.latest? at hn
  split at hn
  case isTrue => cases hn
  case isFalse hne =>
    obtain rfl := Option.some.inj hn
    have htoInt := Int32.toInt_ofNat_of_lt (h.length_lt)
    refine ⟨?_, htoInt⟩
    have hzero : (0 : Int32).toInt = 0 := rfl
    have hlength : 0 < (L.added name).length := List.length_pos_iff.mpr (by simpa using hne)
    rw [Int32.lt_iff_toInt_lt, htoInt, hzero]
    exact Int.natCast_pos.mpr hlength

theorem last?_eq (h : Follows text L r name) :
    r.last? name = (L.latest? name).bind fun n => L.definition? text name n := by
  rcases List.eq_nil_or_concat (L.added name) with hadded | ⟨init, s, hadded⟩
  · simp [h.last?_of_added_eq_nil hadded, Log.latest?, hadded]
  · rw [List.concat_eq_append] at hadded
    obtain ⟨id, hid, hlast⟩ := h.last?_of_added_eq_append hadded
    have hlt : init.length + 1 < 2 ^ 31 := by simpa [hadded] using h.length_lt
    have hlatest : L.latest? name = some (.ofNat (init.length + 1)) := by
      simp [Log.latest?, hadded]
    rw [hlast, hlatest, Option.bind_some, Log.definition?_ofNat_succ hlt, Log.getElem?_revisions,
      hid, hadded]
    simp

/-- The document of the last revision is what is read of that of the log. -/
theorem document_eq (h : Follows text L r name) :
    r.document text name = (L.last? name).mapM text.reread := by
  rw [document, h.last?_eq, Log.last?]
  cases L.latest? name with
  | none => rfl
  | some n => exact Log.readDefinition_definition?

/-- The last revision is the document that was added last. -/
theorem last_eq_some_iff (h : Follows text L r name) {doc : Document} :
    L.last? name = some doc ↔ ∃ id s, L.id? name = some id ∧
      (L.added name).getLast? = some s ∧ doc = stamp id (.ofNat (L.added name).length) s.1 := by
  rcases List.eq_nil_or_concat (L.added name) with hadded | ⟨init, s, hadded⟩
  · simp [Log.last?, Log.latest?, hadded]
  · rw [List.concat_eq_append] at hadded
    have hlt : init.length + 1 < 2 ^ 31 := by simpa [hadded] using h.length_lt
    have hlatest : L.latest? name = some (.ofNat (init.length + 1)) := by
      simp [Log.latest?, hadded]
    rw [Log.last?, hlatest, Option.bind_eq_bind, Option.bind_some, Log.stored?,
      Log.submitted?_ofNat_succ hlt, hadded]
    cases L.id? name <;> simp [eq_comm]

/-! ### Operations -/

/-- What neither the log nor the tables have changed for a name stays. -/
theorem frame (h : Follows text L r name) {L' : Log} (hL : Log.Agree name L' L)
    (hid : (r'.registration? name).map (·.id) = (r.registration? name).map (·.id))
    (hdefinitions : r'.definitions.filter (·.name = name) = r.definitions.filter (·.name = name)) :
    Follows text L' r' name := by
  have hfilter : ∀ p : Definition → Prop, ∀ [DecidablePred p],
      r'.definitions.filter (fun d => d.name = name ∧ p d) =
        r.definitions.filter (fun d => d.name = name ∧ p d) := by
    intro p _
    have hsplit : ∀ ds : List Definition, ds.filter (fun d => d.name = name ∧ p d) =
        (ds.filter (·.name = name)).filter fun d => p d := by
      intro ds
      rw [List.filter_filter]
      exact List.filter_congr fun d _ => by simp [and_comm]
    rw [hsplit, hsplit, hdefinitions]
  exact {
    id_registration := by rw [hid, h.id_registration, hL.id]
    revisions := by rw [hfilter, h.revisions, hL.revisions]
    draft := by rw [hfilter, h.draft, hL.definition?]
    unregistered := by
      rw [hL.id, hL.added, hL.draft]
      exact h.unregistered
    length_lt := by
      rw [hL.added]
      exact h.length_lt }

theorem addInfo (h : Follows text L r name) {id new description : String} {info : Info}
    (hok : r.addInfo id new description = .ok (info, r')) :
    Follows text (.addInfo id new description :: L) r' name := by
  obtain ⟨hnone, -, rfl⟩ := addInfo_eq_ok_iff.mp hok
  have hfresh : ∀ n ∈ r.registrations, n.name ≠ new := by
    simpa [registration?] using hnone
  by_cases hname : new = name
  · subst hname
    have hnew : L.id? new = none := by
      rw [← h.id_registration, hnone]
      rfl
    obtain ⟨hadded, hdraft⟩ := h.unregistered hnew
    exact {
      id_registration := by
        rw [registration?, find?_insertRegistration hfresh, if_pos rfl]
        simp [Log.id?, hnew]
      revisions := h.revisions.trans (by simp [Log.revisions, Log.id?, Log.added, hnew, hadded])
      draft := h.draft.trans (by
        simp [Log.definition?, Log.submitted?, Log.draft?, hnew, hdraft])
      unregistered := fun _ => ⟨hadded, hdraft⟩
      length_lt := h.length_lt }
  · refine h.frame ⟨by simp [Log.id?, hname], rfl, rfl⟩ ?_ rfl
    rw [registration?, find?_insertRegistration hfresh, if_neg hname]
    rfl

theorem updateInfo (h : Follows text L r name) {of description : String} {active : Bool}
    {info : Info} (hok : r.updateInfo of description active = .ok (info, r')) :
    Follows text (.updateInfo of description active :: L) r' name := by
  obtain ⟨n, -, -, rfl⟩ := updateInfo_eq_ok_iff.mp hok
  refine h.frame ⟨rfl, rfl, rfl⟩ ?_ rfl
  rw [registration?, find?_map_update, Option.map_map, registration?]
  congr 1
  funext n
  simp only [Function.comp_apply]
  split_ifs <;> rfl

theorem addSchema (h : Follows text L r name) {doc : Document} {remark : String}
    {number : Int32} (hok : r.addSchema text doc remark = .ok (number, r')) :
    Follows text (.addSchema doc remark :: L) r' name := by
  obtain ⟨n, hn, hnext, rfl⟩ := addSchema_eq_ok_iff.mp hok
  by_cases hname : doc.name = name
  · subst hname
    have hid : L.id? doc.name = some n.id := by
      rw [← h.id_registration, hn]
      rfl
    have hid' : Log.id? doc.name (.addSchema doc remark :: L) = some n.id := hid
    obtain ⟨hlt, hnumber⟩ := h.nextRevision_eq_ok_iff.mp hnext
    have hdraft : number ≠ draftRevision := hnumber ▸ (Log.ofNat_succ hlt).2.1
    have hadded : Log.added doc.name (.addSchema doc remark :: L) =
        L.added doc.name ++ [(doc, remark)] := by
      rw [Log.added, if_pos rfl]
    have hrevisions : Log.revisions text doc.name (.addSchema doc remark :: L) =
        L.revisions text doc.name ++ [definitionOf text n.id number doc remark] := by
      rw [Log.revisions, Log.revisions, hadded, hid, hid', hnumber]
      simp only [List.mapIdx_concat]
    exact {
      id_registration := h.id_registration
      revisions := by
        rw [List.filter_append, h.revisions, hrevisions]
        simp [definitionOf, hdraft]
      draft := by
        rw [List.filter_append, h.draft]
        simp [definitionOf, hdraft, Log.definition?, Log.submitted?, Log.id?, Log.draft?]
      unregistered := fun hnone => by simp [hid'] at hnone
      length_lt := by
        rw [hadded]
        simpa using hlt }
  · refine h.frame ⟨rfl, ?_, rfl⟩ rfl ?_
    · rw [Log.added, if_neg hname]
    · simp [definitionOf, hname]

theorem saveDraft (h : Follows text L r name) {doc : Document} {remark : String}
    (hok : r.saveDraft text doc remark = .ok r') :
    Follows text (.saveDraft doc remark :: L) r' name := by
  obtain ⟨n, hn, rfl⟩ := saveDraft_eq_ok_iff.mp hok
  by_cases hname : doc.name = name
  · subst hname
    have hid : L.id? doc.name = some n.id := by
      rw [← h.id_registration, hn]
      rfl
    have hid' : Log.id? doc.name (.saveDraft doc remark :: L) = some n.id := hid
    have hdraft : Log.definition? text doc.name draftRevision (.saveDraft doc remark :: L) =
        some (definitionOf text n.id draftRevision doc remark) := by
      simp [Log.definition?, hid', Log.submitted?, Log.draft?]
    exact {
      id_registration := h.id_registration
      revisions := by
        refine (Rows.filter_replace_of_neg (by simp [definitionOf]) ?_).trans h.revisions
        rintro d hd heq
        simp only [decide_eq_true_eq] at hd
        exact hd.2 (congrArg Prod.snd heq)
      draft := by
        rw [hdraft]
        refine Rows.filter_replace_of_pos (by simp [definitionOf]) ?_
        rintro d hd
        simp only [decide_eq_true_eq] at hd
        exact Prod.ext hd.1 hd.2
      unregistered := fun hnone => by simp [hid'] at hnone
      length_lt := h.length_lt }
  · refine h.frame ⟨rfl, rfl, ?_⟩ rfl ?_
    · rw [Log.draft?, if_neg hname]
    · refine Rows.filter_replace_of_neg (decide_eq_false hname) ?_
      rintro d hd heq
      exact hname ((congrArg Prod.fst heq).symm.trans (of_decide_eq_true hd))

/-- A publication changes no definition. -/
theorem publish (h : Follows text L r name) {of : String} {c : Compiler} {p : Published}
    (hok : r.publish text of c = .ok (p, r')) : Follows text (.publish of c :: L) r' name := by
  obtain ⟨-, -, -, -, -, rfl⟩ := publish_eq_ok_iff.mp hok
  exact h.frame ⟨rfl, rfl, rfl⟩ rfl rfl

/-- A registry that follows a log follows it with an operation that succeeds. -/
theorem cons (h : Follows text L r name) (hleads : Leads text r op r') :
    Follows text (op :: L) r' name := by
  cases hleads with
  | addInfo hok => exact h.addInfo hok
  | updateInfo hok => exact h.updateInfo hok
  | addSchema hok => exact h.addSchema hok
  | saveDraft hok => exact h.saveDraft hok
  | publish hok => exact h.publish hok
  | reopen => exact h.frame ⟨rfl, rfl, rfl⟩ rfl rfl

end Follows

/-- Every run that begins with the empty registry leads to a registry that follows its log. -/
theorem follows_run (text : DefinitionText) (hmedium : medium = .file ∨ .reopen ∉ ops)
    (name : String) :
    Follows text (empty.log text medium ops) (empty.run text medium ops).2 name :=
  log_of_leads (P := fun L r => Follows text L r name) hmedium (fun h hleads => h.cons hleads)
    (follows_empty name)

end DocTables.Registry
