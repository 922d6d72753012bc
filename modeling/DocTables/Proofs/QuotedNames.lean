import DocTables.Proofs.UniqueScript

/-!
# The names that stand in a script

A reader of a script needs nothing but the backticks to find the names in it. `quotedNames` reads a
text once from the front : a name begins at a backtick and ends at the first one after it that is
not doubled. What it finds in a script are the names of the tables with those in their clauses, in
this order, whatever characters are in them (`quotedNames_join_statements`). The table options are
not quoted, and so they must have no backticks.
-/

namespace DocTables

/-! ## Reading quoted names -/

/-- Where a reader of a text is. -/
inductive Position where
  | outside
  /-- In a name, of which these are the characters so far. -/
  | inside (name : List Char)
  /-- After a backtick in a name. The name ends there unless another follows. -/
  | mark (name : List Char)

/-- The names that a reader finds from a position on. -/
def namesFrom : Position → List Char → List String
  | .outside, [] | .inside _, [] => []
  | .mark name, [] => [String.ofList name]
  | .outside, c :: cs => if c = '\x60' then namesFrom (.inside []) cs else namesFrom .outside cs
  | .inside name, c :: cs =>
    if c = '\x60' then namesFrom (.mark name) cs else namesFrom (.inside (name ++ [c])) cs
  | .mark name, c :: cs =>
    if c = '\x60' then namesFrom (.inside (name ++ [c])) cs
    else String.ofList name :: namesFrom .outside cs

/-- The names between backticks in a text. -/
def quotedNames (s : String) : List String := namesFrom .outside s.toList

/-- A reader outside of names finds these in the text, and is outside after it. -/
def Reads (s : String) (names : List String) : Prop :=
  ∀ rest, namesFrom .outside (s.toList ++ rest) = names ++ namesFrom .outside rest

theorem Reads.quotedNames_eq {s : String} {names : List String} (h : Reads s names) :
    quotedNames s = names := by
  simpa [quotedNames, namesFrom] using h []

theorem Reads.append {s t : String} {names names' : List String} (hs : Reads s names)
    (ht : Reads t names') : Reads (s ++ t) (names ++ names') := by
  intro rest
  rw [String.toList_append, List.append_assoc, hs, ht, List.append_assoc]

theorem namesFrom_outside_append {cs : List Char} (h : '\x60' ∉ cs) (rest : List Char) :
    namesFrom .outside (cs ++ rest) = namesFrom .outside rest := by
  induction cs with
  | nil => rfl
  | cons c cs ih =>
    rw [List.mem_cons, not_or] at h
    rw [List.cons_append, namesFrom, if_neg (Ne.symm h.1), ih h.2]

theorem reads_of_notMem {s : String} (h : '\x60' ∉ s.toList) : Reads s [] :=
  namesFrom_outside_append h

/-- A doubled backtick in a name stands for one. -/
theorem namesFrom_inside_doubled (name cs rest : List Char) :
    namesFrom (.inside name)
      ((cs.flatMap fun c => if c = '\x60' then ['\x60', '\x60'] else [c]) ++ rest) =
      namesFrom (.inside (name ++ cs)) rest := by
  induction cs generalizing name with
  | nil => simp
  | cons c cs ih =>
    by_cases hc : c = '\x60'
    · simp [namesFrom, hc, ih]
    · simp [namesFrom, hc, ih]

/-- A quoted name is read where a character other than a backtick follows. -/
theorem reads_quoteName_append (name : String) {s : String} (hne : s ≠ "")
    (h : '\x60' ∉ s.toList) : Reads (quoteName name ++ s) [name] := by
  intro rest
  obtain ⟨c, cs, hs⟩ := List.exists_cons_of_ne_nil (mt String.toList_eq_nil_iff.mp hne)
  rw [hs, List.mem_cons, not_or] at h
  rw [String.toList_append, toList_quoteName, hs, List.append_assoc, List.append_assoc,
    List.cons_append, namesFrom, if_pos rfl, namesFrom_inside_doubled]
  simp [namesFrom, Ne.symm h.1, namesFrom_outside_append h.2]

theorem reads_quoteNames_append {s : String} (hne : s ≠ "") (h : '\x60' ∉ s.toList) :
    ∀ names : List String, Reads (quoteNames names ++ s) names
  | [] => by simpa [quoteNames] using reads_of_notMem h
  | [name] => by simpa [quoteNames] using reads_quoteName_append name hne h
  | name :: name' :: names => by
    have hname : Reads (quoteName name ++ ", ") [name] :=
      reads_quoteName_append name (by decide) (by decide)
    have hrest := reads_quoteNames_append hne h (name' :: names)
    simpa [quoteNames, String.append_assoc] using hname.append hrest

/-- Texts with a separator are read one after the other. -/
theorem reads_intercalate {α : Type} {f : α → String} {names : α → List String} {sep : String}
    (hsep : '\x60' ∉ sep.toList) (h : ∀ a, Reads (f a) (names a)) :
    ∀ as : List α, Reads (sep.intercalate (as.map f)) (as.flatMap names)
  | [] => reads_of_notMem (by simp)
  | [a] => by simpa using h a
  | a :: b :: as => by
    have htail := (reads_of_notMem hsep).append (reads_intercalate hsep h (b :: as))
    simpa [String.append_assoc] using (h a).append htail

/-! ## Statements -/

/-- The table options have no backticks. -/
structure Dialect.Unquoted (d : Dialect) : Prop where
  engine : '\x60' ∉ d.engine.toList
  charset : '\x60' ∉ d.charset.toList
  collation : '\x60' ∉ d.collation.toList

/-- The quoted names in the line of a clause. -/
def Clause.names : Clause → List String
  | column c => [c.name]
  | primaryKey columns => columns
  | uniqueKey columns => String.intercalate "_" columns :: columns
  | foreignKey name key => [name, key.column, key.table, key.target]

/-- The quoted names in the statement of a table. -/
def Table.identifiers (t : Table) : List String := t.name :: t.clauses.flatMap Clause.names

/-- The name of the table, then those of its columns and of its keys. -/
theorem identifiers_eq (t : Table) : t.identifiers =
    t.name :: (t.columnNames ++ t.primaryKey ++
      (t.uniqueKeys.flatMap fun columns => "_".intercalate columns :: columns) ++
      (t.foreignKeys.mapIdx fun i key =>
        [t.name ++ "_ibfk_" ++ toString (i + 1), key.column, key.table, key.target]).flatten) := by
  have hcolumns : (t.columns.map Clause.column).flatMap Clause.names = t.columnNames := by
    rw [List.flatMap_map, Table.columnNames, List.map_eq_flatMap]
    rfl
  have hprimary : (if t.primaryKey.isEmpty then [] else [Clause.primaryKey t.primaryKey]).flatMap
      Clause.names = t.primaryKey := by
    cases hkey : t.primaryKey <;> simp [Clause.names]
  have hunique : (t.uniqueKeys.map Clause.uniqueKey).flatMap Clause.names =
      t.uniqueKeys.flatMap fun columns => "_".intercalate columns :: columns := by
    rw [List.flatMap_map]
    rfl
  rw [Table.identifiers, Table.clauses, List.flatMap_append, List.flatMap_append,
    List.flatMap_append, hcolumns, hprimary, hunique]
  simp [List.mapIdx_eq_zipIdx_map, List.flatMap_def, Function.comp_def, Clause.names]

variable {d : Dialect}

theorem mark_notMem_toDigits (n : Nat) : '\x60' ∉ Nat.toDigits 10 n := by
  intro h
  exact absurd (Nat.isDigit_of_mem_toDigits (by omega) (by omega) h) (by decide)

theorem mark_notMem_sql (h : d.Unquoted) (type : ColumnType) : '\x60' ∉ (type.sql d).toList := by
  cases type <;> simp [ColumnType.sql, h.collation, mark_notMem_toDigits]

theorem reads_line (h : d.Unquoted) (c : Clause) : Reads (c.line d) c.names := by
  cases c with
  | column c =>
    have htail : '\x60' ∉ (" " ++ c.type.sql d ++ " " ++
        if c.nullable then "DEFAULT NULL" else "NOT NULL").toList := by
      have htype := mark_notMem_sql h c.type
      split <;> simp [htype]
    have hline := reads_quoteName_append c.name (by simp) htail
    rw [Clause.line_column, Column.line, Clause.names]
    simpa only [String.append_assoc] using hline
  | primaryKey columns =>
    have hopen : Reads "PRIMARY KEY(" [] := reads_of_notMem (by decide)
    have hcolumns := reads_quoteNames_append (s := ")") (by decide) (by decide) columns
    rw [Clause.line_primaryKey, Clause.names]
    simpa [String.append_assoc] using hopen.append hcolumns
  | uniqueKey columns =>
    have hopen : Reads "UNIQUE KEY " [] := reads_of_notMem (by decide)
    have hname := reads_quoteName_append ("_".intercalate columns) (s := " (") (by decide)
      (by decide)
    have hcolumns := reads_quoteNames_append (s := ")") (by decide) (by decide) columns
    rw [Clause.line_uniqueKey, Clause.names]
    simpa [String.append_assoc] using (hopen.append hname).append hcolumns
  | foreignKey name key =>
    have hopen : Reads "CONSTRAINT " [] := reads_of_notMem (by decide)
    have hname := reads_quoteName_append name (s := " FOREIGN KEY (") (by decide) (by decide)
    have hcolumn := reads_quoteName_append key.column (s := ") REFERENCES ") (by decide)
      (by decide)
    have htable := reads_quoteName_append key.table (s := " (") (by decide) (by decide)
    have htarget := reads_quoteName_append key.target (s := ")") (by decide) (by decide)
    rw [Clause.line_foreignKey, Clause.names]
    simpa [String.append_assoc] using
      (((hopen.append hname).append hcolumn).append htable).append htarget

theorem reads_statement (h : d.Unquoted) (t : Table) : Reads (t.statement d) t.identifiers := by
  have hopen : Reads "CREATE TABLE " [] := reads_of_notMem (by decide)
  have hname := reads_quoteName_append t.name (s := "(\n") (by decide) (by decide)
  have hlines : Reads (String.intercalate ",\n" (t.clauses.map (Clause.line d)))
      (t.clauses.flatMap Clause.names) := reads_intercalate (by decide) (reads_line h) t.clauses
  have hoptions : Reads ("\n) ENGINE=" ++ d.engine ++ " DEFAULT CHARSET=" ++ d.charset ++
      " COLLATE=" ++ d.collation ++ ";") [] := by
    refine reads_of_notMem ?_
    simp [h.engine, h.charset, h.collation]
  rw [statement_eq, Table.identifiers]
  simpa [String.append_assoc] using (((hopen.append hname).append hlines).append hoptions)

/-! ## Scripts -/

/-- The quoted names in a script are those of its tables. -/
theorem quotedNames_join_statements (h : d.Unquoted) (tables : List Table) :
    quotedNames (String.join (tables.map fun t => t.statement d ++ "\n\n")) =
      tables.flatMap Table.identifiers := by
  refine Reads.quotedNames_eq ?_
  induction tables with
  | nil => exact reads_of_notMem (by simp)
  | cons t tables ih =>
    have hblank : Reads "\n\n" [] := reads_of_notMem (by decide)
    have hstatement := (reads_statement h t).append hblank
    simpa using hstatement.append ih

end DocTables
