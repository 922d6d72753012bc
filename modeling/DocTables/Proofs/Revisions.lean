import DocTables.Proofs.PublishedScripts

/-!
# Revisions, drafts and their numbers

After any run of operations, of which some succeed and others fail, the revisions of a name have the
numbers from one up to the number of documents that were added, each once; the draft is never one of
them (`Registry.numbered_run`). What is stored is the text of a document with the name and the number
under which it stands, and with the id that the name got when it was registered; and if the text of
this document is read back with these, as it is in YAML if the data of the document are read back and
have no more levels than are read (`readsHead_yaml`), the definition is read with them.
-/

namespace DocTables.Registry

variable {text : DefinitionText} {medium : Medium} {ops : List Operation} {L : Log} {r : Registry}
  {name : String}

theorem Log.isSome_draft?_iff : (L.draft? name).isSome ↔
    ∃ doc remark, .saveDraft doc remark ∈ L ∧ doc.name = name := by
  induction L with
  | nil => simp [draft?]
  | cons op L ih =>
    cases op
    case saveDraft doc remark =>
      rw [draft?]
      split_ifs with hname
      · simp only [Option.isSome_some, true_iff]
        exact ⟨doc, remark, List.mem_cons_self, hname⟩
      · rw [ih]
        constructor
        · rintro ⟨doc', remark', hmem, hname'⟩
          exact ⟨doc', remark', List.mem_cons_of_mem _ hmem, hname'⟩
        · rintro ⟨doc', remark', hmem, hname'⟩
          rcases List.mem_cons.mp hmem with heq | hmem
          · obtain ⟨rfl, -⟩ := Operation.saveDraft.inj heq
            exact (hname hname').elim
          · exact ⟨doc', remark', hmem, hname'⟩
    all_goals simpa [draft?] using ih

/-- What a registry holds under a name, as its log tells. -/
structure Numbered (text : DefinitionText) (L : Log) (r : Registry) (name : String) : Prop where
  /-- The rows that are no draft have the numbers from one up, as many as documents were added. -/
  revisions : (r.definitions.filter fun d => d.name = name ∧ d.revision ≠ draftRevision).map
    (·.revision) = (List.range (L.added name).length).map fun i => Int32.ofNat (i + 1)
  /-- The last of them is the latest. -/
  latest (info : Info) : r.info? name = some info → info.latest =
    if (L.added name).length = 0 then none else some (.ofNat (L.added name).length)
  /-- The next document gets the next number. -/
  next (doc : Document) (remark : String) : doc.name = name → (r.info? name).isSome →
    ∃ r', r.addSchema text doc remark = .ok (.ofNat ((L.added name).length + 1), r')
  hasDraft (info : Info) : r.info? name = some info →
    (info.hasDraft ↔ ∃ doc remark, .saveDraft doc remark ∈ L ∧ doc.name = name)
  /-- The name has the id that it got when it was registered. -/
  id : (r.info? name).map (·.id) = L.id? name
  /-- A name that is not registered has no definitions. -/
  unregistered : r.info? name = none → ∀ d ∈ r.definitions, d.name ≠ name
  /-- Nor has it scripts, if scripts are published under the names that were written. -/
  unpublished : L.KeepsHeads text → r.info? name = none → ∀ p ∈ r.scripts, p.name ≠ name
  /-- Every row is the text of a document with its name, its number and the id of the name. -/
  stored (d : Definition) : d ∈ r.definitions → d.name = name → ∃ doc,
    L.stored? name d.revision = some doc ∧ d.text = text.write doc ∧ doc.name = name ∧
    L.id? name = some doc.id ∧ doc.revision = d.revision
  /-- A row whose document is read back with these is read as a document that has them. -/
  reads (d : Definition) : d ∈ r.definitions → d.name = name →
    (∀ doc, L.stored? name d.revision = some doc → ReadsHead text doc) → ∃ doc,
      text.read d.text = .ok doc ∧ doc.name = name ∧ L.id? name = some doc.id ∧
      doc.revision = d.revision

theorem Follows.numbered (h : Follows text L r name)
    (hscripts : L.KeepsHeads text → FollowsScripts text L r name)
    (hlength : (L.added name).length < 2 ^ 31 - 1) : Numbered text L r name := by
  have hregistration : ∀ info, r.info? name = some info →
      ∃ n, r.registration? name = some n ∧ n.name = name ∧ r.info n = info := by
    intro info hinfo
    obtain ⟨n, hn, hinfo⟩ := Option.map_eq_some_iff.mp hinfo
    exact ⟨n, hn, name_of_registration? hn, hinfo⟩
  have hid : (r.info? name).map (·.id) = L.id? name := by
    rw [← h.id_registration, info?, Option.map_map]
    rfl
  have hstored : ∀ d ∈ r.definitions, d.name = name → ∃ doc,
      L.stored? name d.revision = some doc ∧ d.text = text.write doc ∧ doc.name = name ∧
      L.id? name = some doc.id ∧ doc.revision = d.revision := by
    intro d hd hname
    obtain ⟨doc, hdoc, htext⟩ := h.exists_stored?_of_mem hd hname
    obtain ⟨hdocName, hrevision, hdocId⟩ := Log.eq_of_stored? hdoc
    exact ⟨doc, hdoc, htext, hdocName, hdocId, hrevision⟩
  exact {
    revisions := by
      rw [h.revisions, Log.revisions]
      split
      case h_1 id _ => exact List.ext_getElem (by simp) (by simp [definitionOf])
      case h_2 hnone => simp [(h.unregistered hnone).1]
    latest := by
      intro info hinfo
      obtain ⟨n, -, hname, rfl⟩ := hregistration info hinfo
      rw [Registry.info, hname, h.latest?_eq, Log.latest?]
      simp
    next := by
      rintro doc remark rfl hinfo
      obtain ⟨info, hinfo⟩ := Option.isSome_iff_exists.mp hinfo
      obtain ⟨n, hn, -⟩ := hregistration info hinfo
      have hnext := h.nextRevision_eq_ok_iff.mpr ⟨by omega, rfl⟩
      exact ⟨_, addSchema_eq_ok_iff.mpr ⟨n, hn, hnext, rfl⟩⟩
    hasDraft := by
      intro info hinfo
      obtain ⟨n, hn, hname, rfl⟩ := hregistration info hinfo
      have hid' : L.id? name = some n.id := by
        rw [← h.id_registration, hn]
        rfl
      rw [← Log.isSome_draft?_iff, Registry.info, hname, h.definition?_eq]
      cases hdraft : L.draft? name <;> simp [Log.definition?, hid', Log.submitted?, hdraft]
    id := hid
    unregistered := by
      intro hnone d hd hname
      have hid' : L.id? name = none := by rw [← hid, hnone, Option.map_none]
      obtain ⟨doc, -, -, -, hdocId, -⟩ := hstored d hd hname
      simp [hid'] at hdocId
    unpublished := by
      intro hk hnone p hp hname
      have hid' : L.id? name = none := by rw [← hid, hnone, Option.map_none]
      have hsome : (r.published? name p.revision).isSome :=
        List.find?_isSome.mpr ⟨p, hp, by simp [Published.key, hname]⟩
      simp [(hscripts hk).published?_eq_none hid'] at hsome
    stored := hstored
    reads := by
      intro d hd hname hreads
      obtain ⟨doc, hdoc, htext, hdocName, hdocId, hrevision⟩ := hstored d hd hname
      obtain ⟨doc', hread, hid', hname', hrevision'⟩ := hreads doc hdoc
      exact ⟨doc', by rw [htext, hread], hname'.trans hdocName, by rw [hid', hdocId],
        hrevision'.trans hrevision⟩ }

/-- After any run the revisions of a name are numbered from one up, and every row is the text of the
document of its name and number. -/
theorem numbered_run (text : DefinitionText) (medium : Medium) (ops : List Operation)
    (hmedium : medium = .file ∨ .reopen ∉ ops) (name : String)
    (hlength : ((empty.log text medium ops).added name).length < 2 ^ 31 - 1) :
    Numbered text (empty.log text medium ops) (empty.run text medium ops).2 name :=
  (follows_run text hmedium name).numbered (fun hk => followsScripts_run hmedium hk name) hlength

/-- A document is refused before its name is registered; then it becomes the first revision, and
there is a draft. Both are read back. -/
theorem numbered_run_one_revision :
    let ops := [.addSchema { name := "n" } "", .addInfo "i" "n" "", .addSchema { name := "n" } "",
      .saveDraft { name := "n" } ""]
    let L := empty.log .yaml .file ops
    Numbered .yaml L (empty.run .yaml .file ops).2 "n" ∧ L.KeepsHeads .yaml ∧
    ∀ d ∈ (empty.run .yaml .file ops).2.definitions, ∃ doc,
      DefinitionText.yaml.read d.text = .ok doc ∧ doc.name = "n" ∧ L.id? "n" = some doc.id ∧
      doc.revision = d.revision := by
  intro ops L
  have hL : L = [.saveDraft { name := "n" } "", .addSchema { name := "n" } "",
    .addInfo "i" "n" ""] := rfl
  have hlength : (L.added "n").length < 2 ^ 31 - 1 := by rw [hL]; decide
  have hnumbered : Numbered .yaml L (empty.run .yaml .file ops).2 "n" :=
    numbered_run .yaml .file ops (Or.inl rfl) "n" hlength
  have hreads : ∀ name revision doc, L.stored? name revision = some doc →
      Yaml.ReadsBack doc.toData ∧ doc.toData.depth ≤ Yaml.maxDepth := by
    rw [hL]
    refine Log.forall_stored fun name id hid => ?_
    obtain ⟨rfl, rfl⟩ : "n" = name ∧ id = "i" := by simpa [Log.id?, eq_comm] using hid
    constructor
    · rintro (_ | i) s hs
      · obtain rfl := Option.some.inj hs
        decide +kernel
      · cases hs
    · intro s hs
      obtain rfl := Option.some.inj hs
      decide +kernel
  have hname : ∀ d ∈ (empty.run .yaml .file ops).2.definitions, d.name = "n" := by decide +kernel
  refine ⟨hnumbered, fun name revision doc _ hdoc => keepsHead_yaml (hreads name revision doc hdoc).1,
    fun d hd => hnumbered.reads d hd (hname d hd) fun doc hdoc => ?_⟩
  exact readsHead_yaml (hreads "n" d.revision doc hdoc).1 (hreads "n" d.revision doc hdoc).2

end DocTables.Registry
