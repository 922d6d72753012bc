import DocTables.Proofs.JsonDocuments
import DocTables.Proofs.RegistryTables
import DocTables.Proofs.YamlDocuments

/-!
# Documents that are submitted

A document that was read from a text, in JSON or in YAML, is stored in YAML. A text in JSON has fewer
levels than one in YAML may have, and the id and the number under which a document is stored add
none, so what is stored is never refused for its levels; and no item of an unknown kind becomes one
of a known kind. So the document is read back with the id of its name and the number under which it
is stored, and with nothing else changed; the id and the number that the text had do not matter
(`Registry.document_submitted`).
-/

namespace DocTables

namespace Document

/-- A document that was read from a text has no item of an unknown kind with a known name for its
kind, and no more levels than are read in YAML. -/
theorem settled_of_submitted {s : String} {doc : Document}
    (h : ofJson s = .ok doc ∨ ofYaml s = .ok doc) :
    Item.Unambiguous doc.items ∧ doc.toData.depth ≤ Yaml.maxDepth := by
  rcases h with h | h
  · obtain ⟨hunambiguous, hdepth⟩ := ofJson_settled h
    exact ⟨hunambiguous, Nat.le_trans hdepth (by decide)⟩
  · exact ofYaml_settled h

/-- A document that was read from a text is read again after it has been written in YAML, with
whatever id and number. -/
theorem ofYaml_toYaml_stamp {s : String} {doc : Document}
    (h : ofJson s = .ok doc ∨ ofYaml s = .ok doc) {id : String} {revision : Int32}
    (hk : Yaml.ReadsBack (Registry.stamp id revision doc).toData) :
    ofYaml (Registry.stamp id revision doc).toYaml = .ok (Registry.stamp id revision doc) := by
  obtain ⟨hunambiguous, hdepth⟩ := settled_of_submitted h
  have hdepth' : (Registry.stamp id revision doc).toData.depth ≤ Yaml.maxDepth := by
    rw [depth_toData] at hdepth ⊢
    exact hdepth
  have hitems : Item.readBackList doc.items = doc.items :=
    Item.readBackList_eq_iff.mpr hunambiguous
  rw [ofYaml_toYaml hk, if_pos hdepth', Registry.stamp, hitems]

end Document

namespace Registry

/-- The definition of a document that was read from a text is read as this document. -/
theorem read_write_stamp {s : String} {doc : Document}
    (h : Document.ofJson s = .ok doc ∨ Document.ofYaml s = .ok doc) {id : String} {revision : Int32}
    (hk : Yaml.ReadsBack (stamp id revision doc).toData) :
    DefinitionText.yaml.read (DefinitionText.yaml.write (stamp id revision doc)) =
      .ok (stamp id revision doc) := by
  simp only [DefinitionText.yaml]
  exact Document.ofYaml_toYaml_stamp h hk

variable {text : DefinitionText} {r : Registry} {doc : Document} {n : Registration}
  {revision : Int32} {remark : String}

/-- What has been added is the last revision. -/
theorem document_addSchema (hn : r.registration? doc.name = some n)
    (hnext : r.nextRevision doc.name = .ok revision)
    (hread : text.read (text.write (stamp n.id revision doc)) = .ok (stamp n.id revision doc)) :
    ∃ r', r.addSchema text doc remark = .ok (revision, r') ∧
      r'.document text doc.name = .ok (some (stamp n.id revision doc)) ∧
      r'.documentAt text doc.name revision = .ok (some (stamp n.id revision doc)) := by
  let d := definitionOf text n.id revision doc remark
  have hlast : last? { r with definitions := r.definitions ++ [d] } doc.name = some d :=
    last?_append rfl hnext
  have hfind : Rows.find? Definition.key (doc.name, revision) (r.definitions ++ [d]) = some d := by
    have hfresh : Rows.find? Definition.key d.key r.definitions = none :=
      definition?_nextRevision hnext
    rw [Rows.find?_append_singleton hfresh]
    exact if_pos rfl
  have hd : readDefinition text (some d) = .ok (some (stamp n.id revision doc)) :=
    congrArg (Except.map some) hread
  refine ⟨_, addSchema_eq_ok_iff.mpr ⟨n, hn, hnext, rfl⟩, ?_, ?_⟩
  · rw [document, hlast, hd]
  · rw [documentAt, definition?, hfind, hd]

/-- What has been saved is the draft. -/
theorem draft_saveDraft (hn : r.registration? doc.name = some n)
    (hread : text.read (text.write (stamp n.id draftRevision doc)) =
      .ok (stamp n.id draftRevision doc)) :
    ∃ r', r.saveDraft text doc remark = .ok r' ∧
      r'.draft text doc.name = .ok (some (stamp n.id draftRevision doc)) := by
  let d := definitionOf text n.id draftRevision doc remark
  have hfind : Rows.find? Definition.key (doc.name, draftRevision)
      (Rows.replace Definition.key d r.definitions) = some d := by
    rw [Rows.find?_replace]
    exact if_pos rfl
  have hd : readDefinition text (some d) = .ok (some (stamp n.id draftRevision doc)) :=
    congrArg (Except.map some) hread
  refine ⟨_, saveDraft_eq_ok_iff.mpr ⟨n, hn, rfl⟩, ?_⟩
  rw [draft, documentAt, definition?, hfind, hd]

/-- A document that was read from a text is stored under a name that is registered, as the next
revision as long as there is a number for it and as the draft, and is read back with nothing but the
id and the number changed. -/
theorem document_submitted {s : String} {doc : Document}
    (hs : Document.ofJson s = .ok doc ∨ Document.ofYaml s = .ok doc) {r : Registry} {info : Info}
    (hinfo : r.info? doc.name = some info)
    (hlatest : ∀ n, r.latest? doc.name = some n → n < Int32.maxValue)
    (hk : ∀ revision, r.nextRevision doc.name = .ok revision ∨ revision = draftRevision →
      Yaml.ReadsBack (stamp info.id revision doc).toData) (remark : String) :
    (∃ revision r', r.addSchema .yaml doc remark = .ok (revision, r') ∧
      r'.document .yaml doc.name = .ok (some { doc with id := info.id, revision }) ∧
      r'.documentAt .yaml doc.name revision = .ok (some { doc with id := info.id, revision })) ∧
    (∃ r', r.saveDraft .yaml doc remark = .ok r' ∧
      r'.draft .yaml doc.name = .ok (some { doc with id := info.id, revision := -1 })) ∧
    ∀ id revision,
      r.addSchema .yaml { doc with id, revision } remark = r.addSchema .yaml doc remark ∧
      r.saveDraft .yaml { doc with id, revision } remark = r.saveDraft .yaml doc remark := by
  obtain ⟨n, hn, rfl⟩ := Option.map_eq_some_iff.mp hinfo
  obtain ⟨revision, hnext⟩ := exists_nextRevision hlatest
  have hread : ∀ revision, r.nextRevision doc.name = .ok revision ∨ revision = draftRevision →
      DefinitionText.yaml.read (DefinitionText.yaml.write (stamp n.id revision doc)) =
        .ok (stamp n.id revision doc) :=
    fun revision hrevision => read_write_stamp hs (hk revision hrevision)
  refine ⟨⟨revision, ?_⟩, ?_, fun _ _ => ⟨rfl, rfl⟩⟩
  · exact document_addSchema hn hnext (hread revision (Or.inl hnext))
  · exact draft_saveDraft hn (hread draftRevision (Or.inr rfl))

/-- A repeated section is submitted in JSON after a first revision, with a number of its own. -/
theorem document_submitted_section :
    let s := "\x7b\"revision\":7,\"name\":\"n\",\"items\":[\x7b\"type\":\"section\",\"name\":\"s\"," ++
      "\"array\":true,\"items\":[\x7b\"type\":\"Str\",\"name\":\"t\",\"length_limit\":6\x7d," ++
      "\x7b\"type\":\"k\",\"name\":\"u\"\x7d]\x7d]\x7d"
    let doc : Document := { revision := 7, name := "n", items :=
      [.group "s" { repeated := true } [.scalar (.string (some 6)) "t" {}, .foreign "k" "u"]] }
    let r := (empty.run .yaml .file [.addInfo "i" "n" "", .addSchema { name := "n" } ""]).2
    Document.ofJson s = .ok doc ∧
    (∃ revision r', r.addSchema .yaml doc "" = .ok (revision, r') ∧
      r'.document .yaml "n" = .ok (some { doc with id := "i", revision }) ∧
      r'.documentAt .yaml "n" revision = .ok (some { doc with id := "i", revision })) ∧
    ∃ r', r.saveDraft .yaml doc "" = .ok r' ∧
      r'.draft .yaml "n" = .ok (some { doc with id := "i", revision := -1 }) := by
  intro s doc r
  have hs : Document.ofJson s = .ok doc := by decide +kernel
  have hinfo : r.info? doc.name = some ⟨"i", "n", "", true, some 1, false⟩ := by decide +kernel
  have hlatest : r.latest? doc.name = some 1 := by decide +kernel
  have hnext : r.nextRevision doc.name = .ok 2 := by decide +kernel
  have hk : ∀ revision, r.nextRevision doc.name = .ok revision ∨ revision = draftRevision →
      Yaml.ReadsBack (stamp "i" revision doc).toData := by
    rintro revision (h | rfl)
    · obtain rfl : 2 = revision := Except.ok.inj (hnext.symm.trans h)
      decide +kernel
    · decide +kernel
  have hlt : ∀ n, r.latest? doc.name = some n → n < Int32.maxValue := by
    intro n hn
    obtain rfl : 1 = n := Option.some.inj (hlatest.symm.trans hn)
    decide
  obtain ⟨hrevision, hdraft, -⟩ := document_submitted (Or.inl hs) hinfo hlt hk ""
  exact ⟨hs, hrevision, hdraft⟩

end Registry

end DocTables
