import DocTables.Proofs.StoredRegistry
import DocTables.Registry.History
import Mathlib.Data.List.Basic
import Mathlib.Tactic.SplitIfs

/-!
# What an operation does to the tables of a registry

A row that is put in is found under its key, and every other row is found as before
(`Rows.find?_append_singleton`, `Rows.find?_replace`). For each operation there is one lemma that says when it
succeeds, what it answers and which registry comes of it (`Registry.addSchema_eq_ok_iff` and the
like); nothing else is needed of the operations. `Registry.Leads` says of an operation of a history
which of them it is.

The next revision stands under a key that no row has (`Registry.definition?_nextRevision`), in any
registry : its number is greater than those of all revisions. So a revision is never refused because
of its key, and it is the last one as soon as it is stored (`Registry.last?_append`).
-/

namespace DocTables

/-! ## Rows -/

namespace Rows

variable {α : Type} {key : α → Key}

theorem find?_append_singleton {k : Key} {row : α} {rows : List α}
    (h : find? key (key row) rows = none) :
    find? key k (rows ++ [row]) = if key row = k then some row else find? key k rows := by
  unfold find? at *
  rw [List.find?_append]
  split_ifs with hk
  · rw [← hk, h]
    simp
  · simp [hk]

theorem find?_replace {k : Key} {row : α} {rows : List α} :
    find? key k (replace key row rows) = if key row = k then some row else find? key k rows := by
  have hfilter : find? key (key row) (rows.filter (key · ≠ key row)) = none := by
    simp [find?]
  rw [replace, find?_append_singleton hfilter]
  split_ifs with hk
  · rfl
  · unfold find?
    rw [List.find?_filter]
    congr 1
    funext r
    simp only [decide_eq_true_eq, Bool.decide_and, ne_eq, decide_not]
    grind

/-- Rows that are chosen by another key stay. -/
theorem filter_replace_of_neg {row : α} {rows : List α} {p : α → Bool} (hrow : p row = false)
    (hp : ∀ r, p r → key r ≠ key row) : (replace key row rows).filter p = rows.filter p := by
  rw [replace, List.filter_append, List.filter_filter, List.filter_singleton, hrow, cond_false,
    List.append_nil]
  refine List.filter_congr fun r _ => ?_
  by_cases h : p r = true
  · simp [h, hp r h]
  · simp [h]

/-- Of the rows that are chosen by its key, only the new row is there. -/
theorem filter_replace_of_pos {row : α} {rows : List α} {p : α → Bool} (hrow : p row)
    (hp : ∀ r, p r → key r = key row) : (replace key row rows).filter p = [row] := by
  rw [replace, List.filter_append, List.filter_filter, List.filter_singleton, hrow, cond_true,
    List.filter_eq_nil_iff.mpr, List.nil_append]
  intro r _ h
  simp only [Bool.and_eq_true, decide_eq_true_eq] at h
  exact h.2 (hp r h.1)

theorem insert_eq_ok_iff {row : α} {rows rows' : List α} : insert key row rows = .ok rows' ↔
    find? key (key row) rows = none ∧ rows' = rows ++ [row] := by
  unfold insert
  cases find? key (key row) rows <;> simp [eq_comm]

end Rows

/-! ## The last revision -/

namespace Definition

theorem highest?_eq_none_iff {ds : List Definition} : highest? ds = none ↔ ds = [] := by
  cases ds with
  | nil => simp [highest?]
  | cons d ds =>
    rw [highest?]
    split <;> [split_ifs; skip] <;> simp

/-- No number is higher than that of the definition with the highest number. -/
theorem revision_le_of_highest? : ∀ {ds : List Definition} {d : Definition},
    highest? ds = some d → d ∈ ds ∧ ∀ e ∈ ds, e.revision ≤ d.revision
  | [], _, h => by cases h
  | d :: ds, d', h => by
    rw [highest?] at h
    split at h
    case h_1 e he =>
      obtain ⟨hmem, hle⟩ := revision_le_of_highest? he
      simp only [List.mem_cons, forall_eq_or_imp, Int32.le_iff_toInt_le, Int32.lt_iff_toInt_lt]
        at hle h ⊢
      split_ifs at h with hlt <;> obtain rfl := Option.some.inj h
      · exact ⟨Or.inr hmem, by omega, hle⟩
      · exact ⟨Or.inl rfl, by omega, fun f hf => by have := hle f hf; omega⟩
    case h_2 hnone =>
      obtain rfl := Option.some.inj h
      obtain rfl := highest?_eq_none_iff.mp hnone
      simp

/-- A definition with a number above all others is the one with the highest. -/
theorem highest?_append_singleton {d : Definition} : ∀ {ds : List Definition},
    (∀ e ∈ ds, e.revision < d.revision) → highest? (ds ++ [d]) = some d
  | [], _ => rfl
  | e :: ds, h => by
    rw [List.forall_mem_cons] at h
    rw [List.cons_append, highest?, highest?_append_singleton h.2]
    exact if_pos h.1

end Definition

namespace Registry

variable {r r' : Registry} {name name' : String} {revision : Int32}

theorem mem_revisions {d : Definition} :
    d ∈ r.revisions name ↔ d ∈ r.definitions ∧ d.name = name ∧ 0 < d.revision := by
  simp [revisions]

theorem definition?_eq_none_iff : r.definition? name revision = none ↔
    ∀ d ∈ r.definitions, d.name = name → d.revision ≠ revision := by
  simp [definition?, Rows.find?, Definition.key]

/-- The number of the next revision is above those of all revisions. -/
theorem lt_nextRevision (h : r.nextRevision name = .ok revision) :
    0 < revision ∧ ∀ d ∈ r.revisions name, d.revision < revision := by
  have hnext : revision.toInt = ((r.latest? name).getD 0).toInt + 1 := by
    unfold nextRevision at h
    split at h
    case h_1 hrevision =>
      obtain rfl := Except.ok.inj h
      exact Digits.int32?_eq_some_iff.mp hrevision
    case h_2 => cases h
  simp only [Int32.lt_iff_toInt_lt]
  cases hlast : r.last? name with
  | none =>
    have hnil : r.revisions name = [] := Definition.highest?_eq_none_iff.mp hlast
    simp only [latest?, hlast, Option.map_none, Option.getD_none] at hnext
    simp [hnil, hnext]
  | some d =>
    obtain ⟨hmem, hle⟩ := Definition.revision_le_of_highest? hlast
    have hpos := (mem_revisions.mp hmem).2.2
    simp only [latest?, hlast, Option.map_some, Option.getD_some] at hnext
    simp only [Int32.lt_iff_toInt_lt, Int32.le_iff_toInt_le] at hpos hle
    refine ⟨?_, fun e he => ?_⟩
    · have : (0 : Int32).toInt = 0 := rfl
      omega
    · have := hle e he
      omega

/-- Nothing is stored under the number of the next revision. -/
theorem definition?_nextRevision (h : r.nextRevision name = .ok revision) :
    r.definition? name revision = none := by
  obtain ⟨hpos, hlt⟩ := lt_nextRevision h
  rw [definition?_eq_none_iff]
  rintro d hd rfl rfl
  have := hlt d (mem_revisions.mpr ⟨hd, rfl, hpos⟩)
  rw [Int32.lt_iff_toInt_lt] at this
  omega

/-- There is a next revision as long as the last one has not the greatest number. -/
theorem exists_nextRevision (h : ∀ n, r.latest? name = some n → n < Int32.maxValue) :
    ∃ revision, r.nextRevision name = .ok revision := by
  have hlt : ((r.latest? name).getD 0).toInt + 1 < 2 ^ 31 := by
    cases hn : r.latest? name with
    | none => decide
    | some n =>
      have hmax : Int32.maxValue.toInt = 2 ^ 31 - 1 := rfl
      have := Int32.lt_iff_toInt_lt.mp (h n hn)
      rw [Option.getD_some]
      omega
  have hle := Int32.le_toInt ((r.latest? name).getD 0)
  refine ⟨.ofInt (((r.latest? name).getD 0).toInt + 1), ?_⟩
  rw [nextRevision, Digits.int32?, if_pos ⟨by omega, by omega⟩]

/-- A definition with the number of the next revision becomes the last revision. -/
theorem last?_append {d : Definition} (hname : d.name = name)
    (h : r.nextRevision name = .ok d.revision) :
    last? { r with definitions := r.definitions ++ [d] } name = some d := by
  obtain ⟨hpos, hlt⟩ := lt_nextRevision h
  have hrevisions : revisions { r with definitions := r.definitions ++ [d] } name =
      r.revisions name ++ [d] := by
    simp [revisions, hname, hpos]
  rw [last?, hrevisions]
  exact Definition.highest?_append_singleton hlt

end Registry

/-! ## Registrations -/

namespace Registry

variable {r r' : Registry} {name name' : String}

/-- A registration is found under its name once it has been inserted, and every other one is found
as before. -/
theorem find?_insertRegistration {new : Registration} : ∀ {ns : List Registration},
    (∀ n ∈ ns, n.name ≠ new.name) → (insertRegistration new ns).find? (·.name = name) =
      if new.name = name then some new else ns.find? (·.name = name)
  | [], _ => by by_cases hname : new.name = name <;> simp [insertRegistration, hname]
  | n :: ns, h => by
    rw [List.forall_mem_cons] at h
    have ih : (insertRegistration new ns).find? (·.name = name) =
        if new.name = name then some new else ns.find? (·.name = name) :=
      find?_insertRegistration h.2
    rw [insertRegistration]
    split
    · by_cases hname : new.name = name <;> simp [hname]
    · by_cases hn : n.name = name
      · have hname : new.name ≠ name := fun hname => h.1 (hn.trans hname.symm)
        simp [hn, hname]
      · simp [hn, ih]

theorem name_of_registration? {n : Registration} (h : r.registration? name = some n) :
    n.name = name := by
  simpa using List.find?_some h

theorem registered_eq_ok_iff {info : Info} : r.registered name = .ok info ↔
    ∃ n, r.registration? name = some n ∧ r.info n = info := by
  unfold registered info?
  cases r.registration? name <;> simp

end Registry

/-! ## Operations -/

theorem bind_eq_ok_iff {ε α β : Type} {x : Except ε α} {f : α → Except ε β} {b : β} :
    x >>= f = .ok b ↔ ∃ a, x = .ok a ∧ f a = .ok b := by
  cases x <;> simp [bind, Except.bind]

theorem exists_of_map_eq_ok {ε α β : Type} {x : Except ε α} {f : α → β} {b : β}
    (h : x.map f = .ok b) : ∃ a, x = .ok a ∧ f a = b := by
  cases x with
  | error e => cases h
  | ok a => exact ⟨a, rfl, Except.ok.inj h⟩

theorem toOption_eq_some_iff {ε α : Type} {x : Except ε α} {a : α} :
    x.toOption = some a ↔ x = .ok a := by
  cases x <;> simp [Except.toOption]

theorem mapM_eq_ok_some_iff {ε α β : Type} {x : Option α} {f : α → Except ε β} {b : β} :
    x.mapM f = .ok (some b) ↔ ∃ a, x = some a ∧ f a = .ok b := by
  cases x with
  | none => simp [pure, Except.pure]
  | some a => cases hb : f a <;> simp [hb]

namespace Registry

variable {r r' : Registry} {name description : String} {info : Info}

theorem addInfo_eq_ok_iff {id : String} : r.addInfo id name description = .ok (info, r') ↔
    r.registration? name = none ∧
    info = { id, name, description, active := true, latest := none, hasDraft := false } ∧
    r' = { r with
      registrations := insertRegistration { id, name, description } r.registrations } := by
  unfold addInfo info?
  cases r.registration? name <;> simp [eq_comm]

/-- What has been changed is found under the same names. -/
theorem find?_map_update {active : Bool} {ns : List Registration} {name' : String} :
    (ns.map fun n => if n.name = name then { n with description, active } else n).find?
      (·.name = name') = (ns.find? (·.name = name')).map fun n =>
        if n.name = name then { n with description, active } else n := by
  rw [List.find?_map]
  congr 2
  funext n
  simp only [Function.comp_apply]
  split_ifs <;> rfl

theorem updateInfo_eq_ok_iff {active : Bool} : r.updateInfo name description active = .ok (info, r') ↔
    ∃ n, r.registration? name = some n ∧ info = r.info { n with description, active } ∧
    r' = { r with registrations := r.registrations.map fun n =>
      if n.name = name then { n with description, active } else n } := by
  simp only [updateInfo, bind_eq_ok_iff, registered_eq_ok_iff, registration?, find?_map_update]
  cases hn : r.registrations.find? (·.name = name) with
  | none => simp
  | some n =>
    have hname : n.name = name := name_of_registration? hn
    simp only [Option.map_some, Option.some.injEq, exists_eq_left', hname, if_true]
    constructor
    · intro h
      obtain ⟨rfl, rfl⟩ := Prod.mk.inj (Except.ok.inj h)
      exact ⟨rfl, rfl⟩
    · rintro ⟨rfl, rfl⟩
      rfl

/-- What is registered can be changed, and then has what it is given. Other names stay as they are. -/
theorem exists_updateInfo (h : r.info? name = some info) (description : String) (active : Bool) :
    ∃ r', r.updateInfo name description active = .ok ({ info with description, active }, r') ∧
      r'.info? name = some { info with description, active } ∧
      ∀ other, other ≠ name → r'.info? other = r.info? other := by
  obtain ⟨n, hn, rfl⟩ := Option.map_eq_some_iff.mp h
  have hname : n.name = name := name_of_registration? hn
  refine ⟨_, updateInfo_eq_ok_iff.mpr ⟨n, hn, rfl, rfl⟩, ?_, fun other hother => ?_⟩
  · rw [info?, registration?, find?_map_update,
      show r.registrations.find? (·.name = name) = some n from hn, Option.map_some,
      Option.map_some, if_pos hname]
    rfl
  · rw [info?, registration?, find?_map_update, info?, registration?, Option.map_map]
    refine Option.map_congr fun n' hn' => ?_
    have hname' : n'.name = other := name_of_registration? hn'
    rw [Function.comp_apply, if_neg (hname' ▸ hother)]
    rfl

variable {text : DefinitionText} {doc : Document} {remark : String}

theorem addSchema_eq_ok_iff {revision : Int32} :
    r.addSchema text doc remark = .ok (revision, r') ↔ ∃ n, r.registration? doc.name = some n ∧
      r.nextRevision doc.name = .ok revision ∧
      r' = { r with
        definitions := r.definitions ++ [definitionOf text n.id revision doc remark] } := by
  simp only [addSchema, bind_eq_ok_iff, registered_eq_ok_iff, Rows.insert_eq_ok_iff]
  constructor
  · rintro ⟨_, ⟨n, hn, rfl⟩, next, hnext, _, ⟨-, rfl⟩, h⟩
    obtain ⟨rfl, rfl⟩ := Prod.mk.inj (Except.ok.inj h)
    exact ⟨n, hn, hnext, rfl⟩
  · rintro ⟨n, hn, hnext, rfl⟩
    exact ⟨_, ⟨n, hn, rfl⟩, revision, hnext, _, ⟨definition?_nextRevision hnext, rfl⟩, rfl⟩

theorem saveDraft_eq_ok_iff : r.saveDraft text doc remark = .ok r' ↔
    ∃ n, r.registration? doc.name = some n ∧ r' = { r with
      definitions := Rows.replace Definition.key (definitionOf text n.id draftRevision doc remark)
        r.definitions } := by
  simp only [saveDraft, bind_eq_ok_iff, registered_eq_ok_iff]
  constructor
  · rintro ⟨_, ⟨n, hn, rfl⟩, h⟩
    exact ⟨n, hn, (Except.ok.inj h).symm⟩
  · rintro ⟨n, hn, rfl⟩
    exact ⟨_, ⟨n, hn, rfl⟩, rfl⟩

theorem publish_eq_ok_iff {c : Compiler} {published : Published} :
    r.publish text name c = .ok (published, r') ↔ ∃ doc script,
      r.document text name = .ok (some doc) ∧ c.compile doc = .ok script ∧
      published = { name := doc.name, revision := doc.revision, script } ∧
      r' = { r with scripts := Rows.replace Published.key published r.scripts } := by
  simp only [publish, bind_eq_ok_iff]
  constructor
  · rintro ⟨_ | doc, hdoc, h⟩
    · cases h
    · obtain ⟨script, hscript, h⟩ := bind_eq_ok_iff.mp h
      obtain ⟨rfl, rfl⟩ := Prod.mk.inj (Except.ok.inj h)
      exact ⟨doc, script, hdoc, hscript, rfl, rfl⟩
  · rintro ⟨doc, script, hdoc, hscript, rfl, rfl⟩
    exact ⟨some doc, hdoc, bind_eq_ok_iff.mpr ⟨script, hscript, rfl⟩⟩

/-- A script that is kept is found under its name and number, and every other one as before. -/
theorem published?_replace {p : Published} {name : String} {revision : Int32} :
    published? { r with scripts := Rows.replace Published.key p r.scripts } name revision =
      if p.name = name ∧ p.revision = revision then some p else r.published? name revision := by
  rw [published?, Rows.find?_replace]
  simp [Published.key, published?]

/-! ### Operations as data -/

/-- An operation succeeds and leads from one registry to another. -/
inductive Leads (text : DefinitionText) (r : Registry) : Operation → Registry → Prop
  | addInfo {id name description : String} {info : Info} {r' : Registry} :
    r.addInfo id name description = .ok (info, r') → Leads text r (.addInfo id name description) r'
  | updateInfo {name description : String} {active : Bool} {info : Info} {r' : Registry} :
    r.updateInfo name description active = .ok (info, r') →
    Leads text r (.updateInfo name description active) r'
  | addSchema {doc : Document} {remark : String} {number : Int32} {r' : Registry} :
    r.addSchema text doc remark = .ok (number, r') → Leads text r (.addSchema doc remark) r'
  | saveDraft {doc : Document} {remark : String} {r' : Registry} :
    r.saveDraft text doc remark = .ok r' → Leads text r (.saveDraft doc remark) r'
  | publish {name : String} {c : Compiler} {p : Published} {r' : Registry} :
    r.publish text name c = .ok (p, r') → Leads text r (.publish name c) r'
  /-- A registry that is kept in a file is the same when it is opened again. -/
  | reopen : Leads text r .reopen r

/-- An operation that is carried out leads to the registry that it gives. -/
theorem leads_of_apply {medium : Medium} {op : Operation} {a : Answer}
    (hmedium : op = .reopen → medium = .file) (hok : r.apply text medium op = .ok (a, r')) :
    Leads text r op r' := by
  cases op with
  | addInfo id name description =>
    obtain ⟨⟨info, r'⟩, hinfo, heq⟩ := exists_of_map_eq_ok hok
    obtain rfl := (Prod.mk.inj heq).2
    exact .addInfo hinfo
  | updateInfo name description active =>
    obtain ⟨⟨info, r'⟩, hinfo, heq⟩ := exists_of_map_eq_ok hok
    obtain rfl := (Prod.mk.inj heq).2
    exact .updateInfo hinfo
  | addSchema doc remark =>
    obtain ⟨⟨number, r'⟩, hnumber, heq⟩ := exists_of_map_eq_ok hok
    obtain rfl := (Prod.mk.inj heq).2
    exact .addSchema hnumber
  | saveDraft doc remark =>
    obtain ⟨r', hdraft, heq⟩ := exists_of_map_eq_ok hok
    obtain rfl := (Prod.mk.inj heq).2
    exact .saveDraft hdraft
  | publish name c =>
    obtain ⟨⟨p, r'⟩, hpublish, heq⟩ := exists_of_map_eq_ok hok
    obtain rfl := (Prod.mk.inj heq).2
    exact .publish hpublish
  | reopen =>
    obtain rfl := hmedium rfl
    rw [apply] at hok
    obtain ⟨r', hreload, heq⟩ := exists_of_map_eq_ok hok
    obtain rfl := (Prod.mk.inj heq).2
    rw [reload_eq] at hreload
    obtain rfl := Except.ok.inj hreload
    exact .reopen

end Registry

end DocTables
