import DocTables.Proofs.Cycles
import DocTables.Proofs.Failures

/-!
# The first thing wrong with a table

A table may be made by hand, and much may be wrong with it at once. `Table.FirstFault` says what
comes first : its name, that it has no columns, a column of the primary key, of a unique key or of a
foreign key that it does not have, and the size of a column. This is what is found
(`Table.fault?_eq_some_iff`), and nothing is found exactly in the tables that are sound and in which
every column fits (`Table.fault?_eq_none_iff`).

So any tables that can be put in an order of creation have a script exactly if nothing is wrong with
any of them, and otherwise the first in this order with something wrong says why
(`script_outcome`).
-/

namespace DocTables

namespace Table

variable {t : Table} {name : String} {names names' : List String} {fault : TableFault}

/-! ## Names of columns -/

/-- Of the names, `name` is the first that no column of the table has. -/
def FirstUnknown (t : Table) (names : List String) (name : String) : Prop :=
  ∃ before after, names = before ++ name :: after ∧ before ⊆ t.columnNames ∧ name ∉ t.columnNames

theorem isNone_column?_iff : (t.column? name).isNone ↔ name ∉ t.columnNames := by
  simp [column?, columnNames]

theorem find?_isNone_column?_eq_none_iff :
    names.find? (fun name => (t.column? name).isNone) = none ↔ names ⊆ t.columnNames := by
  simp only [List.find?_eq_none, isNone_column?_iff, not_not]
  rfl

theorem find?_isNone_column?_eq_some_iff :
    names.find? (fun name => (t.column? name).isNone) = some name ↔ t.FirstUnknown names name := by
  have hknown : ∀ s, (!(t.column? s).isNone) = true ↔ s ∈ t.columnNames := by
    intro s
    rw [Bool.not_eq_true', ← Bool.not_eq_true, isNone_column?_iff, not_not]
  rw [List.find?_eq_some_iff_append, isNone_column?_iff]
  simp only [hknown]
  constructor
  · rintro ⟨hname, before, after, hnames, hbefore⟩
    exact ⟨before, after, hnames, hbefore, hname⟩
  · rintro ⟨before, after, hnames, hbefore, hname⟩
    exact ⟨hname, before, after, hnames, hbefore⟩

theorem firstUnknown_append : t.FirstUnknown (names ++ names') name ↔
    t.FirstUnknown names name ∨ names ⊆ t.columnNames ∧ t.FirstUnknown names' name := by
  simp only [← find?_isNone_column?_eq_some_iff, ← find?_isNone_column?_eq_none_iff,
    List.find?_append, Option.or_eq_some_iff]

/-! ## Faults -/

/-- What is wrong with a table, and nothing that is looked at before. -/
inductive FirstFault (t : Table) : TableFault → Prop
  | emptyName : t.name = "" → FirstFault t .emptyName
  | noColumns : t.name ≠ "" → t.columns = [] → FirstFault t .noColumns
  | primaryKey {column : String} : t.name ≠ "" → t.columns ≠ [] →
    t.FirstUnknown t.primaryKey column → FirstFault t (.unknownKeyColumn column)
  | uniqueKey {column : String} : t.name ≠ "" → t.columns ≠ [] → t.primaryKey ⊆ t.columnNames →
    t.FirstUnknown t.uniqueKeys.flatten column → FirstFault t (.unknownKeyColumn column)
  | foreignKey {column : String} : t.name ≠ "" → t.columns ≠ [] → t.primaryKey ⊆ t.columnNames →
    t.uniqueKeys.flatten ⊆ t.columnNames →
    t.FirstUnknown (t.foreignKeys.map ForeignKey.column) column →
    FirstFault t (.unknownKeyColumn column)
  /-- The columns before `c` are not too large. -/
  | size {before after : List Column} {c : Column} {fault : TableFault} : t.Sound →
    t.columns = before ++ c :: after → (∀ c ∈ before, c.type.Fits) → c.type.Oversized fault →
    FirstFault t fault

theorem fault?_of_unknown (hname : t.name ≠ "") (hcolumns : t.columns ≠ [])
    (h : t.FirstUnknown t.keyColumns name) : t.fault? = some (.unknownKeyColumn name) := by
  have hname' : t.name.isEmpty = false := by simpa using hname
  have hcolumns' : t.columns.isEmpty = false := by simpa using hcolumns
  simp [fault?, hname', hcolumns', find?_isNone_column?_eq_some_iff.mpr h]

/-- A table has a name and columns and its keys name its columns, or one of these is the first thing
wrong with it. -/
theorem sound_or_exists_fault? (t : Table) :
    t.Sound ∨ ∃ fault, t.fault? = some fault ∧ t.FirstFault fault := by
  by_cases hname : t.name = ""
  · exact Or.inr ⟨.emptyName, by simp [fault?, hname], .emptyName hname⟩
  by_cases hcolumns : t.columns = []
  · exact Or.inr ⟨.noColumns, by simp [fault?, hname, hcolumns], .noColumns hname hcolumns⟩
  cases hfind : t.keyColumns.find? fun name => (t.column? name).isNone with
  | none => exact Or.inl ⟨hname, hcolumns, find?_isNone_column?_eq_none_iff.mp hfind⟩
  | some column =>
    have hunknown : t.FirstUnknown t.keyColumns column :=
      find?_isNone_column?_eq_some_iff.mp hfind
    refine Or.inr ⟨_, fault?_of_unknown hname hcolumns hunknown, ?_⟩
    rw [keyColumns, firstUnknown_append, firstUnknown_append, List.append_subset] at hunknown
    rcases hunknown with (hprimary | ⟨hprimary, hunique⟩) | ⟨⟨hprimary, hunique⟩, hforeign⟩
    · exact .primaryKey hname hcolumns hprimary
    · exact .uniqueKey hname hcolumns hprimary hunique
    · exact .foreignKey hname hcolumns hprimary hunique hforeign

theorem fault?_eq_none_iff : t.fault? = none ↔ t.Sound ∧ t.Fits := by
  rcases t.sound_or_exists_fault? with hsound | ⟨fault, hfault, hfirst⟩
  · rw [hsound.fault?_eq_none_iff, and_iff_right hsound]
  · refine ⟨fun h => ?_, fun ⟨hsound, hfits⟩ => hsound.fault?_eq_none_iff.mpr hfits⟩
    simp [hfault] at h

/-- What is found is the first thing wrong. -/
theorem fault?_eq_some_iff : t.fault? = some fault ↔ t.FirstFault fault := by
  constructor
  · intro h
    rcases t.sound_or_exists_fault? with hsound | ⟨fault', hfault, hfirst⟩
    · obtain ⟨before, c, after, hcolumns, hover, hbefore⟩ := hsound.fault?_eq_some_iff.mp h
      exact .size hsound hcolumns hbefore hover
    · obtain rfl := Option.some.inj (h.symm.trans hfault)
      exact hfirst
  · intro h
    cases h with
    | emptyName hname => simp [fault?, hname]
    | noColumns hname hcolumns => simp [fault?, hname, hcolumns]
    | primaryKey hname hcolumns hprimary =>
      refine fault?_of_unknown hname hcolumns ?_
      rw [keyColumns, firstUnknown_append, firstUnknown_append]
      exact Or.inl (Or.inl hprimary)
    | uniqueKey hname hcolumns hprimary hunique =>
      refine fault?_of_unknown hname hcolumns ?_
      rw [keyColumns, firstUnknown_append, firstUnknown_append]
      exact Or.inl (Or.inr ⟨hprimary, hunique⟩)
    | foreignKey hname hcolumns hprimary hunique hforeign =>
      refine fault?_of_unknown hname hcolumns ?_
      rw [keyColumns, firstUnknown_append]
      exact Or.inr ⟨List.append_subset.mpr ⟨hprimary, hunique⟩, hforeign⟩
    | size hsound hcolumns hbefore hover =>
      exact hsound.fault?_eq_some_iff.mpr ⟨_, _, _, hcolumns, hover, hbefore⟩

end Table

/-! ## Scripts of any tables -/

open EmissionOrder in
/-- Whatever the tables are, if they can be put in an order of creation they have a script exactly
if all of them are sound and no column is too large. The script is their statements in this order,
with a blank line after each. Otherwise the first of them in this order with something wrong is
named, with what is wrong with it first. If there is no order of creation, the cycle is the reason
whatever is wrong with the tables. -/
theorem script_outcome (d : Dialect) (root : Table) (children : List Table) :
    (∀ e, emissionOrder root children = .error e →
      (∃ names, e = .dependencyCycle names) ∧ script d root children = .error e) ∧
    ∀ tables, emissionOrder root children = .ok tables →
      ((∃ sql, script d root children = .ok sql) ↔
        ∀ t ∈ root :: children, t.Sound ∧ t.Fits) ∧
      (∀ sql, script d root children = .ok sql →
        sql = String.join (tables.map fun t => t.statement d ++ "\n\n") ∧
        ∀ t ∈ tables, t.render d = .ok (t.statement d)) ∧
      ∀ e, script d root children = .error e ↔ ∃ pre t post fault, tables = pre ++ t :: post ∧
        (∀ u ∈ pre, u.Sound ∧ u.Fits) ∧ t.FirstFault fault ∧ e = .render t.name fault := by
  refine ⟨fun e he => ⟨?_, script_eq_error_iff.mpr (Or.inl he)⟩, fun tables horder => ?_⟩
  · obtain ⟨-, rfl⟩ := places_eq_error_iff.mp (emissionOrder_eq_error_iff.mp he)
    exact ⟨_, rfl⟩
  have hperm := perm_of_emissionOrder horder
  refine ⟨?_, fun sql hsql => ?_, fun e => ?_⟩
  · simp only [script_eq_ok_iff, horder, Except.ok.injEq, exists_eq_left', Table.fault?_eq_none_iff,
      hperm.mem_iff, exists_and_left, exists_eq, and_true]
  · obtain ⟨_, horder', hfault, rfl⟩ := script_eq_ok_iff.mp hsql
    obtain rfl := Except.ok.inj (horder.symm.trans horder')
    refine ⟨rfl, fun t ht => ?_⟩
    rw [Table.render, hfault t ht]
  · simp only [script_eq_error_iff, horder, reduceCtorEq, Except.ok.injEq, false_or,
      Table.fault?_eq_none_iff, Table.fault?_eq_some_iff]

open Table in
/-- The table without a name comes first in the preferred order, but it refers to the one with an
unknown column in its second unique key, another in a foreign key, and a column that is too large.
-/
theorem script_outcome_two_faults :
    let root := keyed "r"
    let b := (((childOf "b" "r").addUniqueKey ["id", "parent_id"]).addUniqueKey
      ["id", "u"]).addForeignKey "f" "r" "id" |>.addColumn "c" (.fixedChar 256) false
    let a : Table := { name := "", foreignKeys := [⟨"id", "b", "id"⟩] }
    emissionOrder root [b, a] = .ok [root, b, a] ∧
    script {} root [b, a] = .error (.render "b" (.unknownKeyColumn "u")) ∧
    (¬∀ t ∈ [root, b, a], t.Sound ∧ t.Fits) ∧
    ∃ pre t post fault, [root, b, a] = pre ++ t :: post ∧ (∀ u ∈ pre, u.Sound ∧ u.Fits) ∧
      t.FirstFault fault ∧ Error.render "b" (.unknownKeyColumn "u") = .render t.name fault := by
  intro root b a
  have horder : emissionOrder root [b, a] = .ok [root, b, a] := by decide +kernel
  have hscript : script {} root [b, a] = .error (.render "b" (.unknownKeyColumn "u")) := by
    decide +kernel
  obtain ⟨hok, -, herror⟩ := (script_outcome {} root [b, a]).2 _ horder
  refine ⟨horder, hscript, fun hall => ?_, (herror _).mp hscript⟩
  obtain ⟨sql, hsql⟩ := hok.mpr hall
  rw [hscript] at hsql
  cases hsql

end DocTables
