import DocTables.Proofs.Rendering
import Mathlib.Data.List.Basic

/-!
# A script determines its tables

Every part of a statement ends where its text says it does : a quoted name at the first backtick
that is not doubled, a number at the parenthesis after it, a list at a character that begins neither
an item nor a separator. `SelfDelimiting` says this of a way of writing values, for texts that go on
with a character of some kind. It holds of each part in turn, whatever characters the names hold,
and so of statements (`selfDelimiting_statement`) and of scripts.

So two inputs with the same script have the same tables in the same order
(`emissionOrder_eq_of_script_eq`). Engine, character set and collation may be any texts, but the
same ones on both sides.
-/

namespace DocTables

/-! ## Self-delimiting texts -/

/-- A text of `f` that goes on with a character of `next` tells the value it was written from, and
where it ends. -/
def SelfDelimiting {α : Type} (f : α → String) (next : Char → Prop) : Prop :=
  ∀ ⦃a b : α⦄ ⦃x y : Char⦄ ⦃r s : List Char⦄, next x → next y →
    (f a).toList ++ x :: r = (f b).toList ++ y :: s → a = b ∧ x :: r = y :: s

variable {α : Type} {f : α → String} {next : Char → Prop}

/-- What is left of a list after its first item : each other item with the separator before it. -/
def separated (f : α → String) (sep : List Char) (as : List α) : List Char :=
  as.flatMap fun a => sep ++ (f a).toList

theorem toList_intercalate_cons (f : α → String) (sep : String) (a : α) (as : List α) :
    (sep.intercalate ((a :: as).map f)).toList = (f a).toList ++ separated f sep.toList as := by
  induction as generalizing a with
  | nil => simp [separated]
  | cons b as ih =>
    have hb := ih b
    simp only [List.map_cons, String.intercalate_cons_cons, String.toList_append] at hb ⊢
    rw [hb]
    simp [separated]

section

variable {x stop : Char} {seps : List Char}

/-- After an item comes a separator or the end. -/
theorem SelfDelimiting.append_separated (h : SelfDelimiting f next) (hx : next x)
    (hstop : next stop) {a b : α} {as bs : List α} {r s : List Char}
    (heq : (f a).toList ++ (separated f (x :: seps) as ++ stop :: r) =
      (f b).toList ++ (separated f (x :: seps) bs ++ stop :: s)) :
    a = b ∧ separated f (x :: seps) as ++ stop :: r = separated f (x :: seps) bs ++ stop :: s := by
  have hcons : ∀ (as : List α) (r : List Char),
      ∃ c cs, separated f (x :: seps) as ++ stop :: r = c :: cs ∧ next c := by
    intro as r
    cases as with
    | nil => exact ⟨stop, r, rfl, hstop⟩
    | cons a as => exact ⟨x, _, rfl, hx⟩
  obtain ⟨c, cs, hc, hnext⟩ := hcons as r
  obtain ⟨c', cs', hc', hnext'⟩ := hcons bs s
  rw [hc, hc'] at heq ⊢
  exact h hnext hnext' heq

theorem SelfDelimiting.separated_inj (h : SelfDelimiting f next) (hx : next x) (hstop : next stop)
    (hne : x ≠ stop) : ∀ {as bs : List α} {r s : List Char},
      separated f (x :: seps) as ++ stop :: r = separated f (x :: seps) bs ++ stop :: s →
        as = bs ∧ r = s
  | [], [], _, _, heq => by simpa [separated] using heq
  | [], _ :: _, _, _, heq => by simp [separated, hne.symm] at heq
  | _ :: _, [], _, _, heq => by simp [separated, hne] at heq
  | a :: as, b :: bs, r, s, heq => by
    obtain ⟨rfl, htail⟩ := h.append_separated hx hstop (by simpa [separated] using heq)
    obtain ⟨rfl, rfl⟩ := h.separated_inj hx hstop hne htail
    exact ⟨rfl, rfl⟩

/-- A list of self-delimiting texts with a separator ends at a character that begins neither a text
nor the separator. -/
theorem SelfDelimiting.intercalate (h : SelfDelimiting f next) {sep : String}
    (hsep : sep.toList = x :: seps) (hx : next x) (hstop : next stop) (hne : x ≠ stop)
    (hbegin : ∀ a, ∃ c cs, (f a).toList = c :: cs ∧ c ≠ stop) :
    SelfDelimiting (fun as : List α => sep.intercalate (as.map f)) (· = stop) := by
  have hhead : ∀ (a : α) (cs r : List Char), (f a).toList ++ cs ≠ stop :: r := by
    intro a cs r heq
    obtain ⟨c, cs', hc, hcs⟩ := hbegin a
    rw [hc] at heq
    exact hcs (List.cons.inj heq).1
  rintro (_ | ⟨a, as⟩) (_ | ⟨b, bs⟩) y z r s rfl rfl heq
  · exact ⟨rfl, heq⟩
  · rw [toList_intercalate_cons, List.append_assoc] at heq
    exact (hhead b _ _ heq.symm).elim
  · rw [toList_intercalate_cons, List.append_assoc] at heq
    exact (hhead a _ _ heq).elim
  · rw [toList_intercalate_cons, toList_intercalate_cons, List.append_assoc, List.append_assoc,
      hsep] at heq
    obtain ⟨rfl, htail⟩ := h.append_separated hx hstop heq
    obtain ⟨rfl, rfl⟩ := h.separated_inj hx hstop hne htail
    exact ⟨rfl, rfl⟩

end

/-! ## Names, numbers and types -/

theorem toList_quoteName (name : String) : (quoteName name).toList =
    '\x60' :: (name.toList.flatMap fun c => if c = '\x60' then ['\x60', '\x60'] else [c]) ++
      ['\x60'] := by
  simp [quoteName]

/-- The backtick that ends a quoted name is the first that is not doubled. -/
theorem quoted_inj : ∀ {cs ds r s : List Char} {x y : Char}, x ≠ '\x60' → y ≠ '\x60' →
    (cs.flatMap fun c => if c = '\x60' then ['\x60', '\x60'] else [c]) ++ '\x60' :: x :: r =
      (ds.flatMap fun c => if c = '\x60' then ['\x60', '\x60'] else [c]) ++ '\x60' :: y :: s →
    cs = ds ∧ x :: r = y :: s
  | [], [], _, _, _, _, _, _, h => by simpa using h
  | [], d :: ds, _, _, _, _, hx, _, h => by
    by_cases hd : d = '\x60'
    · simp [hd, hx] at h
    · simp [hd, Ne.symm hd] at h
  | c :: cs, [], _, _, _, _, _, hy, h => by
    by_cases hc : c = '\x60'
    · simp [hc, hy.symm] at h
    · simp [hc] at h
  | c :: cs, d :: ds, r, s, x, y, hx, hy, h => by
    by_cases hc : c = '\x60' <;> by_cases hd : d = '\x60'
    · obtain ⟨rfl, htail⟩ := quoted_inj hx hy (by simpa [hc, hd] using h)
      exact ⟨by rw [hc, hd], htail⟩
    · simp [hc, hd, Ne.symm hd] at h
    · simp [hc, hd] at h
    · simp only [List.flatMap_cons, if_neg hc, if_neg hd, List.cons_append,
        List.cons.injEq] at h
      obtain ⟨rfl, htail⟩ := quoted_inj hx hy h.2
      exact ⟨by rw [h.1], htail⟩

theorem selfDelimiting_quoteName : SelfDelimiting quoteName (· ≠ '\x60') := by
  intro a b x y r s hx hy h
  rw [toList_quoteName, toList_quoteName] at h
  obtain ⟨hab, htail⟩ := quoted_inj hx hy (by simpa using h)
  exact ⟨String.toList_inj.mp hab, htail⟩

/-- A number ends at the parenthesis after it. -/
theorem toDigits_append_inj {m n : UInt32} {r s : List Char}
    (h : Nat.toDigits 10 m.toNat ++ ')' :: r = Nat.toDigits 10 n.toNat ++ ')' :: s) :
    m = n ∧ r = s := by
  have hdigits : ∀ (n : Nat) (r : List Char),
      (Nat.toDigits 10 n ++ ')' :: r).takeWhile Char.isDigit = Nat.toDigits 10 n := by
    intro n r
    rw [List.takeWhile_append_of_pos fun c hc =>
      Nat.isDigit_of_mem_toDigits (by omega) (by omega) hc]
    simp
  have hmn : Nat.toDigits 10 m.toNat = Nat.toDigits 10 n.toNat := by
    rw [← hdigits m.toNat r, h, hdigits]
  rw [hmn] at h
  refine ⟨?_, (List.cons.inj (List.append_cancel_left h)).2⟩
  have hnat := congrArg (Nat.ofDigitChars 10 · 0) hmn
  simp only [Nat.ofDigitChars_toDigits (by omega : 1 < 10) (Nat.le_refl 10)] at hnat
  exact UInt32.toNat_inj.mp hnat

/-- The beginnings of the types differ, and the collation is the same everywhere. -/
theorem selfDelimiting_columnType (d : Dialect) :
    SelfDelimiting (ColumnType.sql d) fun _ => True := by
  intro a b x y r s _ _ h
  cases a <;> cases b <;> simp [ColumnType.sql] at h ⊢
  case fixedChar.fixedChar =>
    obtain ⟨rfl, htail⟩ := toDigits_append_inj h
    simpa using htail
  case decimal.decimal =>
    obtain ⟨rfl, htail⟩ := toDigits_append_inj h
    simpa using htail
  all_goals exact h

/-! ## Clauses -/

/-- What stands on one line between the parentheses of a statement. -/
inductive Clause where
  | column (c : Column)
  | primaryKey (columns : List String)
  | uniqueKey (columns : List String)
  | foreignKey (name : String) (key : ForeignKey)

namespace Clause

/-- The line of a clause. -/
def line (d : Dialect) : Clause → String
  | column c => c.line d
  | primaryKey columns => "PRIMARY KEY(" ++ quoteNames columns ++ ")"
  | uniqueKey columns => Table.uniqueKeyLine columns
  | foreignKey name key =>
    "CONSTRAINT " ++ quoteName name ++ " FOREIGN KEY (" ++ quoteName key.column ++
      ") REFERENCES " ++ quoteName key.table ++ " (" ++ quoteName key.target ++ ")"

/-! Lean takes too long to derive these equations by itself. -/

theorem line_column (d : Dialect) (c : Column) : (column c).line d = c.line d :=
  rfl

theorem line_primaryKey (d : Dialect) (columns : List String) :
    (primaryKey columns).line d = "PRIMARY KEY(" ++ quoteNames columns ++ ")" :=
  rfl

theorem line_uniqueKey (d : Dialect) (columns : List String) :
    (uniqueKey columns).line d = "UNIQUE KEY " ++ quoteName (String.intercalate "_" columns) ++
      " (" ++ quoteNames columns ++ ")" :=
  rfl

theorem line_foreignKey (d : Dialect) (name : String) (key : ForeignKey) :
    (foreignKey name key).line d = "CONSTRAINT " ++ quoteName name ++ " FOREIGN KEY (" ++
      quoteName key.column ++ ") REFERENCES " ++ quoteName key.table ++ " (" ++
      quoteName key.target ++ ")" :=
  rfl

def column? : Clause → Option Column
  | column c => some c
  | _ => none

def primaryKey? : Clause → Option (List String)
  | primaryKey columns => some columns
  | _ => none

def uniqueKey? : Clause → Option (List String)
  | uniqueKey columns => some columns
  | _ => none

def foreignKey? : Clause → Option ForeignKey
  | foreignKey _ key => some key
  | _ => none

end Clause

namespace Table

/-- The clauses of a table, in the order of its lines. -/
def clauses (t : Table) : List Clause :=
  t.columns.map .column ++ (if t.primaryKey.isEmpty then [] else [.primaryKey t.primaryKey]) ++
    t.uniqueKeys.map .uniqueKey ++
    t.foreignKeys.mapIdx fun i key => .foreignKey (t.name ++ "_ibfk_" ++ toString (i + 1)) key

theorem lines_eq (t : Table) (d : Dialect) : t.lines d = t.clauses.map (Clause.line d) := by
  have hforeign : t.foreignKeys.mapIdx t.foreignKeyLine = (t.foreignKeys.mapIdx fun i key =>
      Clause.foreignKey (t.name ++ "_ibfk_" ++ toString (i + 1)) key).map (Clause.line d) := by
    rw [List.mapIdx_eq_zipIdx_map, List.mapIdx_eq_zipIdx_map, List.map_map]
    rfl
  simp only [lines, clauses, primaryKeyLines, List.map_append, List.map_map, hforeign]
  congr 3
  split_ifs <;> rfl

/-- The table of that name with those clauses. -/
def ofClauses (name : String) (clauses : List Clause) : Table where
  name
  columns := clauses.filterMap Clause.column?
  primaryKey := (clauses.filterMap Clause.primaryKey?).flatten
  foreignKeys := clauses.filterMap Clause.foreignKey?
  uniqueKeys := clauses.filterMap Clause.uniqueKey?

/-- A table is known by its name and its clauses. -/
theorem ofClauses_clauses (t : Table) : ofClauses t.name t.clauses = t := by
  obtain ⟨name, columns, primaryKey, foreignKeys, uniqueKeys⟩ := t
  simp only [ofClauses, clauses, List.mapIdx_eq_zipIdx_map, List.filterMap_append,
    List.filterMap_map, Function.comp_def]
  cases primaryKey <;> simp [Clause.column?, Clause.primaryKey?, Clause.foreignKey?,
    Clause.uniqueKey?]

end Table

/-! ## Statements -/

/-- A list of quoted names ends at the parenthesis after it. -/
theorem selfDelimiting_quoteNames : SelfDelimiting quoteNames (· = ')') :=
  selfDelimiting_quoteName.intercalate rfl (by decide) (by decide) (by decide)
    fun name => ⟨_, _, toList_quoteName name, by decide⟩

theorem selfDelimiting_columnLine (d : Dialect) : SelfDelimiting (Column.line d) fun _ => True := by
  rintro ⟨name, type, nullable⟩ ⟨name', type', nullable'⟩ x y r s _ _ h
  simp only [Column.line, String.toList_append, String.reduceToList, List.append_assoc,
    List.cons_append, List.nil_append] at h
  obtain ⟨rfl, htype⟩ := selfDelimiting_quoteName (by decide) (by decide) h
  obtain ⟨rfl, hnull⟩ := selfDelimiting_columnType d trivial trivial (List.cons.inj htype).2
  cases nullable <;> cases nullable' <;> simp at hnull ⊢
  all_goals exact hnull

/-- The character that a line begins with tells its kind. -/
def Clause.initial : Clause → Char
  | column _ => '\x60'
  | primaryKey _ => 'P'
  | uniqueKey _ => 'U'
  | foreignKey _ _ => 'C'

theorem toList_line (d : Dialect) (c : Clause) : ∃ cs, (c.line d).toList = c.initial :: cs := by
  cases c with
  | column c =>
    simp only [Clause.line_column, Column.line, String.toList_append, toList_quoteName,
      List.cons_append]
    exact ⟨_, rfl⟩
  | primaryKey columns =>
    simp only [Clause.line_primaryKey, String.toList_append, String.reduceToList, List.cons_append]
    exact ⟨_, rfl⟩
  | uniqueKey columns =>
    simp only [Clause.line_uniqueKey, String.toList_append, String.reduceToList, List.cons_append]
    exact ⟨_, rfl⟩
  | foreignKey name key =>
    simp only [Clause.line_foreignKey, String.toList_append, String.reduceToList, List.cons_append]
    exact ⟨_, rfl⟩

theorem selfDelimiting_line (d : Dialect) : SelfDelimiting (Clause.line d) fun _ => True := by
  intro a b x y r s _ _ h
  have hinitial : a.initial = b.initial := by
    obtain ⟨cs, ha⟩ := toList_line d a
    obtain ⟨ds, hb⟩ := toList_line d b
    rw [ha, hb] at h
    exact (List.cons.inj h).1
  cases a <;> cases b <;> simp only [Clause.initial, Char.reduceEq] at hinitial
  case column.column a b =>
    obtain ⟨rfl, htail⟩ := selfDelimiting_columnLine d trivial trivial h
    exact ⟨rfl, htail⟩
  case primaryKey.primaryKey a b =>
    simp only [Clause.line_primaryKey, String.toList_append, String.reduceToList, List.append_assoc,
      List.cons_append, List.nil_append, List.cons.injEq, true_and] at h
    obtain ⟨rfl, htail⟩ := selfDelimiting_quoteNames rfl rfl h
    exact ⟨rfl, (List.cons.inj htail).2⟩
  case uniqueKey.uniqueKey a b =>
    simp only [Clause.line_uniqueKey, String.toList_append, String.reduceToList, List.append_assoc,
      List.cons_append, List.nil_append, List.cons.injEq, true_and] at h
    obtain ⟨-, hcolumns⟩ := selfDelimiting_quoteName (by decide) (by decide) h
    simp only [List.cons.injEq, true_and] at hcolumns
    obtain ⟨rfl, htail⟩ := selfDelimiting_quoteNames rfl rfl hcolumns
    exact ⟨rfl, (List.cons.inj htail).2⟩
  case foreignKey.foreignKey name key name' key' =>
    obtain ⟨column, table, target⟩ := key
    obtain ⟨column', table', target'⟩ := key'
    simp only [Clause.line_foreignKey, String.toList_append, String.reduceToList, List.append_assoc,
      List.cons_append, List.nil_append, List.cons.injEq, true_and] at h
    obtain ⟨rfl, hcolumn⟩ := selfDelimiting_quoteName (by decide) (by decide) h
    simp only [List.cons.injEq, true_and] at hcolumn
    obtain ⟨rfl, htable⟩ := selfDelimiting_quoteName (by decide) (by decide) hcolumn
    simp only [List.cons.injEq, true_and] at htable
    obtain ⟨rfl, htarget⟩ := selfDelimiting_quoteName (by decide) (by decide) htable
    simp only [List.cons.injEq, true_and] at htarget
    obtain ⟨rfl, htail⟩ := selfDelimiting_quoteName (by decide) (by decide) htarget
    exact ⟨rfl, (List.cons.inj htail).2⟩

/-- The lines of a statement end at a line feed with no comma before it. -/
theorem selfDelimiting_lines (d : Dialect) : SelfDelimiting
    (fun clauses : List Clause => String.intercalate ",\n" (clauses.map (Clause.line d)))
    (· = '\n') :=
  (selfDelimiting_line d).intercalate rfl trivial trivial (by decide) fun c => by
    obtain ⟨cs, hcs⟩ := toList_line d c
    exact ⟨_, cs, hcs, by cases c <;> simp [Clause.initial]⟩

theorem statement_eq (t : Table) (d : Dialect) : t.statement d =
    "CREATE TABLE " ++ quoteName t.name ++ "(\n" ++
      String.intercalate ",\n" (t.clauses.map (Clause.line d)) ++ "\n) ENGINE=" ++ d.engine ++
      " DEFAULT CHARSET=" ++ d.charset ++ " COLLATE=" ++ d.collation ++ ";" := by
  rw [← Table.lines_eq]
  rfl

/-- A statement ends where the table options end, which are the same in all of them. -/
theorem selfDelimiting_statement (d : Dialect) :
    SelfDelimiting (fun t : Table => t.statement d) fun _ => True := by
  intro t u x y r s _ _ h
  simp only [statement_eq, String.toList_append, String.reduceToList, List.append_assoc,
    List.cons_append, List.nil_append, List.cons.injEq, true_and] at h
  obtain ⟨hname, hlines⟩ := selfDelimiting_quoteName (by decide) (by decide) h
  simp only [List.cons.injEq, true_and] at hlines
  obtain ⟨hclauses, htail⟩ := selfDelimiting_lines d rfl rfl hlines
  refine ⟨?_, ?_⟩
  · rw [← t.ofClauses_clauses, ← u.ofClauses_clauses, hname, hclauses]
  · simpa using htail

/-! ## Scripts -/

/-- A script is cut into its statements from the front. -/
theorem join_statements_inj (d : Dialect) : ∀ {tables tables' : List Table},
    String.join (tables.map fun t => t.statement d ++ "\n\n") =
      String.join (tables'.map fun t => t.statement d ++ "\n\n") → tables = tables'
  | [], [], _ => rfl
  | [], t :: _, h => by
    have := congrArg String.toList h
    simp at this
  | t :: _, [], h => by
    have := congrArg String.toList h
    simp at this
  | t :: tables, u :: tables', h => by
    have hlist := congrArg String.toList h
    simp only [List.map_cons, String.join_cons, String.toList_append, String.reduceToList,
      List.append_assoc, List.cons_append, List.nil_append] at hlist
    obtain ⟨rfl, htail⟩ := selfDelimiting_statement d trivial trivial hlist
    simp only [List.cons.injEq, true_and, String.toList_inj] at htail
    rw [join_statements_inj d htail]

/-- Inputs with one script have the same tables, and in the same order. -/
theorem emissionOrder_eq_of_script_eq {d : Dialect} {root root' : Table}
    {children children' : List Table} {sql : String} (h : script d root children = .ok sql)
    (h' : script d root' children' = .ok sql) :
    ∃ order, emissionOrder root children = .ok order ∧
      emissionOrder root' children' = .ok order := by
  obtain ⟨order, horder, -, hsql⟩ := script_eq_ok_iff.mp h
  obtain ⟨order', horder', -, hsql'⟩ := script_eq_ok_iff.mp h'
  obtain rfl := join_statements_inj d (hsql.symm.trans hsql')
  exact ⟨order, horder, horder'⟩

open Table in
/-- Tables that are given in two orders are created in one. A name holds characters of the script.
-/
theorem emissionOrder_eq_of_script_eq_reordered :
    ∃ sql order,
      script {} (keyed "r") [childOf "s\x60,\n(" "r", childOf "t" "s\x60,\n("] = .ok sql ∧
      script {} (keyed "r") [childOf "t" "s\x60,\n(", childOf "s\x60,\n(" "r"] = .ok sql ∧
      emissionOrder (keyed "r") [childOf "s\x60,\n(" "r", childOf "t" "s\x60,\n("] = .ok order ∧
      emissionOrder (keyed "r") [childOf "t" "s\x60,\n(", childOf "s\x60,\n(" "r"] = .ok order := by
  have hfault : ∀ t ∈ [keyed "r", childOf "s\x60,\n(" "r", childOf "t" "s\x60,\n("],
      t.fault? = none := by decide
  have h : script {} (keyed "r") [childOf "s\x60,\n(" "r", childOf "t" "s\x60,\n("] = .ok _ :=
    script_eq_ok_iff.mpr ⟨_, rfl, hfault, rfl⟩
  have h' : script {} (keyed "r") [childOf "t" "s\x60,\n(", childOf "s\x60,\n(" "r"] = .ok _ :=
    script_eq_ok_iff.mpr ⟨_, rfl, hfault, rfl⟩
  obtain ⟨order, horder, horder'⟩ := emissionOrder_eq_of_script_eq h h'
  exact ⟨_, order, h, h', horder, horder'⟩

end DocTables
