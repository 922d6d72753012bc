import DocTables.Proofs.PlainNames
import DocTables.Proofs.PublishedScripts
import DocTables.Uuid

/-!
# Document types with different tables

Under a plain naming the name of every table goes on from that of the root, if at all, with an
underscore (`exists_rootTable_append`). In the name of the root an underscore ends the id, which has
none, and a number has none either, so that the id and the revision can be read off any name of a
table whatever the items are called (`rootTable_inj`).

In a registry the scripts are made of document types with the ids of their names and the numbers of
their revisions. Where the ids are different, and have no underscores as those that are written from
bytes have none (`Uuid.underscore_notMem_ofBytes`), the scripts of two revisions create different
tables (`Registry.disjoint_tables`). A script says which tables it creates, since no others have the
same statements (`join_statements_inj`).
-/

namespace DocTables

open Naming

/-! ## Ids -/

namespace Uuid

theorem underscore_notMem_hex (width n : Nat) : '_' ∉ Digits.hex 'a' width n := by
  induction width generalizing n with
  | zero => simp [Digits.hex]
  | succ width ih =>
    have hdigit : ∀ k < 16, Digits.digit 'a' k ≠ '_' := by decide
    rw [Digits.hex, List.mem_append, List.mem_singleton, not_or]
    exact ⟨ih (n / 16), (hdigit _ (Nat.mod_lt n (by omega))).symm⟩

/-- A character of a list of texts with a separator is one of the separator or of a text. -/
theorem notMem_intercalate {c : Char} {sep : String} (hsep : c ∉ sep.toList) :
    ∀ {texts : List String}, (∀ s ∈ texts, c ∉ s.toList) → c ∉ (sep.intercalate texts).toList
  | [], _ => by simp
  | [s], h => by simpa using h s
  | s :: t :: texts, h => by
    rw [String.intercalate_cons_cons, String.toList_append, String.toList_append, List.mem_append,
      List.mem_append, not_or, not_or]
    refine ⟨⟨h s List.mem_cons_self, hsep⟩, ?_⟩
    exact notMem_intercalate hsep fun u hu => h u (List.mem_cons_of_mem s hu)

/-- An id is written without underscores. -/
theorem underscore_notMem_ofBytes (bytes : List UInt8) : '_' ∉ (ofBytes bytes).toList := by
  refine notMem_intercalate (by decide) fun s hs => ?_
  obtain ⟨group, -, rfl⟩ := List.mem_map.mp hs
  simp [underscore_notMem_hex]

end Uuid

/-! ## Roots -/

theorem rootTable_inj {style style' : ColumnStyle} {id id' : String} {revision revision' : Int32}
    {r s : List Char} (hid : '_' ∉ id.toList) (hid' : '_' ∉ id'.toList) (hr : AtBreak r)
    (hs : AtBreak s) (h : ((plain style).rootTable id revision).toList ++ r =
      ((plain style').rootTable id' revision').toList ++ s) : id = id' ∧ revision = revision' := by
  simp only [plain, String.toList_append, String.reduceToList, List.append_assoc, List.cons_append,
    List.nil_append, List.cons.injEq, true_and] at h
  obtain ⟨heq, hrest⟩ := append_inj_of_atBreak hid hid' (Or.inr ⟨_, rfl⟩) (Or.inr ⟨_, rfl⟩) h
  simp only [List.cons.injEq, true_and] at hrest
  obtain ⟨hnumber, -⟩ := append_inj_of_atBreak (Digits.underscore_notMem_toString_int _)
    (Digits.underscore_notMem_toString_int _) hr hs hrest
  have hrevision := Digits.toString_int_inj (String.toList_inj.mp hnumber)
  exact ⟨String.toList_inj.mp heq, Int32.toInt_inj.mp hrevision⟩

/-! ## Two document types -/

variable {style style' : ColumnStyle} {doc doc' : Document} {d d' : Decomposition}

/-- The name of every table begins with that of the root. -/
theorem exists_rootTable_append (h : doc.decompose (plain style) = .ok d) :
    ∀ t ∈ d.tables, ∃ rest, AtBreak rest ∧
      t.name.toList = ((plain style).rootTable doc.id doc.revision).toList ++ rest := by
  obtain ⟨hroot, ht⟩ := decompose_eq_ok_iff.mp h
  refine List.forall_mem_cons.mpr ⟨⟨[], Or.inl rfl, ?_⟩, fun t htmem => ?_⟩
  · rw [hroot, List.append_nil]
    rfl
  · obtain ⟨rest, hname⟩ := (ht.namedFrom t htmem).exists_append
    exact ⟨'_' :: rest, Or.inr ⟨rest, rfl⟩, hname⟩

theorem name_ne_of_decompose (h : doc.decompose (plain style) = .ok d)
    (h' : doc'.decompose (plain style') = .ok d') (hid : '_' ∉ doc.id.toList)
    (hid' : '_' ∉ doc'.id.toList) (hne : doc.id ≠ doc'.id ∨ doc.revision ≠ doc'.revision) :
    ∀ t ∈ d.tables, ∀ t' ∈ d'.tables, t.name ≠ t'.name := by
  intro t ht t' ht' heq
  obtain ⟨r, hr, hname⟩ := exists_rootTable_append h t ht
  obtain ⟨s, hs, hname'⟩ := exists_rootTable_append h' t' ht'
  rw [heq] at hname
  obtain ⟨hsame, hrevision⟩ := rootTable_inj hid hid' hr hs (hname.symm.trans hname')
  exact hne.elim (absurd hsame) (absurd hrevision)

namespace Registry

variable {text : DefinitionText} {L : Log} {r : Registry} {name name' : String}
  {revision revision' : Int32} {p p' : Published} {dialect dialect' : Dialect}

/-- Names whose ids differ have scripts that create different tables, and so have two revisions of
one name. -/
theorem exists_disjoint_creates (hf : ∀ name, Follows text L r name)
    (h : ∀ name, FollowsScripts text L r name) (hk : L.KeepsHeads text)
    (hids : (r.registrations.map (·.id)).Nodup)
    (hunderscore : ∀ n ∈ r.registrations, '_' ∉ n.id.toList)
    (hp : r.published? name revision = some p)
    (hc : (L.publications name).lookup revision = some ⟨.plain style, dialect⟩)
    (hp' : r.published? name' revision' = some p')
    (hc' : (L.publications name').lookup revision' = some ⟨.plain style', dialect'⟩)
    (hne : (name, revision) ≠ (name', revision')) :
    ∃ tables tables', Creates dialect p.script tables ∧ Creates dialect' p'.script tables' ∧
      ∀ t ∈ tables, ∀ t' ∈ tables', t.name ≠ t'.name := by
  have hregistration : ∀ {name id}, L.id? name = some id →
      ∃ n ∈ r.registrations, n.name = name ∧ n.id = id := by
    intro name id hid
    rw [← (hf name).id_registration] at hid
    obtain ⟨n, hn, hid⟩ := Option.map_eq_some_iff.mp hid
    exact ⟨n, List.mem_of_find?_eq_some hn, name_of_registration? hn, hid⟩
  obtain ⟨_, doc, hlookup, hdoc, hrevision, hcompile⟩ := (h name).exists_compile hk hp
  obtain ⟨_, doc', hlookup', hdoc', hrevision', hcompile'⟩ := (h name').exists_compile hk hp'
  obtain rfl := Option.some.inj (hc.symm.trans hlookup)
  obtain rfl := Option.some.inj (hc'.symm.trans hlookup')
  obtain ⟨n, hn, hname, hid⟩ := hregistration hdoc
  obtain ⟨n', hn', hname', hid'⟩ := hregistration hdoc'
  obtain ⟨d, hd, hcreates⟩ := creates_of_compile hcompile
  obtain ⟨d', hd', hcreates'⟩ := creates_of_compile hcompile'
  refine ⟨_, _, hcreates, hcreates', ?_⟩
  have hdiffer : doc.id ≠ doc'.id ∨ doc.revision ≠ doc'.revision := by
    by_contra hsame
    push Not at hsame
    obtain rfl : n = n' :=
      List.inj_on_of_nodup_map hids hn hn' (hid.trans (hsame.1.trans hid'.symm))
    exact hne (Prod.ext (hname.symm.trans hname')
      (hrevision.symm.trans (hsame.2.trans hrevision')))
  have hnames := name_ne_of_decompose hd hd' (hid ▸ hunderscore n hn) (hid' ▸ hunderscore n' hn')
    hdiffer
  intro t ht t' ht'
  refine hnames t ?_ t' ?_
  · simpa [Decomposition.tables] using ht
  · simpa [Decomposition.tables] using ht'

/-- Document types without items of unknown kinds, whose ids have no underscore, have no table name
in common if their ids or their revisions differ, whatever the names of their items are. So in a
registry with a different id for every name, none of them with an underscore, the scripts of two
revisions create different tables, if the documents keep their ids, names and numbers when they are
read back; the rest of them need not be read back as it was. -/
theorem disjoint_tables :
    (∀ (style style' : ColumnStyle) (doc doc' : Document), Item.Known doc.items →
      Item.Known doc'.items → '_' ∉ doc.id.toList → '_' ∉ doc'.id.toList →
      doc.id ≠ doc'.id ∨ doc.revision ≠ doc'.revision →
      ∃ d d', doc.decompose (.plain style) = .ok d ∧ doc'.decompose (.plain style') = .ok d' ∧
        ∀ t ∈ d.tables, ∀ t' ∈ d'.tables, t.name ≠ t'.name) ∧
    ∀ (text : DefinitionText) (medium : Medium) (ops : List Operation),
      (medium = .file ∨ .reopen ∉ ops) → Log.KeepsHeads text (empty.log text medium ops) →
      ((empty.run text medium ops).2.registrations.map (·.id)).Nodup →
      (∀ n ∈ (empty.run text medium ops).2.registrations, '_' ∉ n.id.toList) →
      ∀ (name name' : String) (revision revision' : Int32) (p p' : Published)
        (style style' : ColumnStyle) (dialect dialect' : Dialect),
        (empty.run text medium ops).2.published? name revision = some p →
        ((empty.log text medium ops).publications name).lookup revision =
          some ⟨.plain style, dialect⟩ →
        (empty.run text medium ops).2.published? name' revision' = some p' →
        ((empty.log text medium ops).publications name').lookup revision' =
          some ⟨.plain style', dialect'⟩ →
        (name, revision) ≠ (name', revision') →
        ∃ tables tables', Creates dialect p.script tables ∧ Creates dialect' p'.script tables' ∧
          ∀ t ∈ tables, ∀ t' ∈ tables', t.name ≠ t'.name := by
  constructor
  · intro style style' doc doc' hknown hknown' hid hid' hne
    obtain ⟨d, hd⟩ := exists_decompose (.plain style) hknown
    obtain ⟨d', hd'⟩ := exists_decompose (.plain style') hknown'
    exact ⟨d, d', hd, hd', name_ne_of_decompose hd hd' hid hid' hne⟩
  · intro text medium ops hmedium hk hids hunderscore name name' revision revision' p p' style
      style' dialect dialect' hp hc hp' hc' hne
    exact exists_disjoint_creates (follows_run text hmedium) (followsScripts_run hmedium hk) hk hids
      hunderscore hp hc hp' hc' hne

/-- Item names that look like ends of the names of roots, and two names that are published. The
document of one of them is not read back as it was, but has its id and its number. -/
theorem disjoint_tables_two_names :
    (∃ d d', (Document.mk "i" 1 "m" [.upload "_r1", .upload "1"]).decompose (.plain .raw) = .ok d ∧
      (Document.mk "i" 11 "m" [.upload "1"]).decompose (.plain .underscore) = .ok d' ∧
      ∀ t ∈ d.tables, ∀ t' ∈ d'.tables, t.name ≠ t'.name) ∧
    let m := Uuid.ofBytes (List.replicate 16 0)
    let n := Uuid.ofBytes (List.replicate 16 1)
    let ops := [.addInfo m "m" "", .addInfo n "n" "", .addSchema { name := "m" } "",
      .addSchema { name := "n", items := [.foreign "integer" "x"] } "", .publish "m" {},
      .publish "n" {}]
    ∃ p p' tables tables',
      (empty.run .yaml .file ops).2.published? "m" 1 = some p ∧
      (empty.run .yaml .file ops).2.published? "n" 1 = some p' ∧
      Creates {} p.script tables ∧ Creates {} p'.script tables' ∧
      ∀ t ∈ tables, ∀ t' ∈ tables', t.name ≠ t'.name := by
  constructor
  · exact disjoint_tables.1 .raw .underscore (.mk "i" 1 "m" [.upload "_r1", .upload "1"])
      (.mk "i" 11 "m" [.upload "1"]) (by simp [Item.upload]) (by simp [Item.upload]) (by decide)
      (by decide) (by decide)
  · intro m n ops
    obtain ⟨hok, hids, hp, hp'⟩ : (∀ answer ∈ (empty.run .yaml .file ops).1, answer.isOk) ∧
        (empty.run .yaml .file ops).2.registrations.map (·.id) = [m, n] ∧
        ((empty.run .yaml .file ops).2.published? "m" 1).isSome ∧
        ((empty.run .yaml .file ops).2.published? "n" 1).isSome := by
      decide +kernel
    have hk : Log.KeepsHeads .yaml (empty.log .yaml .file ops) := by
      rw [log_eq_reverse hok]
      refine Log.forall_revision fun name id hid => ?_
      have hname : "m" = name ∧ m = id ∨ "n" = name ∧ n = id := by
        by_cases hm : "m" = name <;> by_cases hn : "n" = name <;>
          simp_all [ops, Log.id?]
      rcases hname with ⟨rfl, rfl⟩ | ⟨rfl, rfl⟩
      all_goals
        rintro (_ | i) s hs
        · obtain rfl := Option.some.inj hs
          exact keepsHead_yaml (by decide +kernel)
        · cases hs
    have hunderscore : ∀ x ∈ (empty.run .yaml .file ops).2.registrations, '_' ∉ x.id.toList := by
      intro x hx
      have hmem : x.id ∈ [m, n] := hids ▸ List.mem_map_of_mem hx
      rcases List.mem_pair.mp hmem with h | h <;> rw [h] <;> exact Uuid.underscore_notMem_ofBytes _
    obtain ⟨p, hp⟩ := Option.isSome_iff_exists.mp hp
    obtain ⟨p', hp'⟩ := Option.isSome_iff_exists.mp hp'
    have hlookup : ∀ name ∈ ["m", "n"],
        ((empty.log .yaml .file ops).publications name).lookup 1 = some ⟨.plain .raw, {}⟩ := by
      rw [log_eq_reverse hok]
      simp only [List.forall_mem_cons]
      exact ⟨rfl, rfl, by simp⟩
    obtain ⟨tables, tables', hcreates, hcreates', hne⟩ := disjoint_tables.2 .yaml .file ops
      (Or.inl rfl) hk (hids ▸ by decide +kernel) hunderscore "m" "n" 1 1 p p' .raw .raw {} {} hp
      (hlookup "m" (by simp)) hp' (hlookup "n" (by simp)) (by decide)
    exact ⟨p, p', tables, tables', hp, hp', hcreates, hcreates', hne⟩

end Registry

end DocTables
