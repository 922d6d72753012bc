import DocTables.Proofs.Ownership
import DocTables.Settings

/-!
# Why a document type has no script

The namings that settings choose give every table a name (`Settings.namesTables`). A table of a
document type has a column besides, and its keys name its columns, so nothing is wrong with it
unless one of its columns is too large (`Table.Sound.fault?_eq_some_iff`). The columns that may be
too large are those of the scalars, wherever these stand (`Tabulated.fits_iff`).

So under any settings a document type has a script unless it has an item of an unknown kind or a
scalar that is too large. The error tells of an item of an unknown kind if there is one, and
otherwise of the first table with a column that is too large (`compile_outcome`).
-/

namespace DocTables

/-! ## Sizes -/

/-- A column of the type is too large, and this is what is wrong with it. -/
inductive ColumnType.Oversized : ColumnType → TableFault → Prop
  | fixedChar {length : UInt32} : 255 < length → Oversized (.fixedChar length) (.charTooLong length)
  | decimal {places : UInt32} :
    11 < places → Oversized (.decimal places) (.decimalTooPrecise places)

/-- A column of the type is not too large. -/
def ColumnType.Fits (type : ColumnType) : Prop := ∀ fault, ¬type.Oversized fault

/-- No column of the table is too large. -/
def Table.Fits (t : Table) : Prop := ∀ c ∈ t.columns, c.type.Fits

/-- The text is at most 255 characters long, and the number has at most 11 digits. -/
def ScalarType.Fits : ScalarType → Prop
  | string (some limit) => limit ≤ 255
  | decimal places => places ≤ 11
  | integer | boolean | string none => True

/-- No scalar is too large, at any depth. -/
def Item.Fit (items : List Item) : Prop :=
  ∀ type name flags, (Item.scalar type name flags).Within items → type.Fits

/-- Of the tables, `t` is the first with a column that is too large, and `fault` is what is wrong
with the first such column. -/
def FirstOversized (tables : List Table) (t : Table) (fault : TableFault) : Prop :=
  ∃ pre post before c after, tables = pre ++ t :: post ∧ t.columns = before ++ c :: after ∧
    c.type.Oversized fault ∧ (∀ u ∈ pre, u.Fits) ∧
    ∀ c ∈ before, c.type.Fits

namespace ColumnType

variable {type : ColumnType} {fault : TableFault}

/-- Size is all that is wrong. -/
theorem Oversized.fault_eq (h : type.Oversized fault) :
    (∃ length, fault = .charTooLong length) ∨ ∃ places, fault = .decimalTooPrecise places := by
  cases h with
  | fixedChar => exact Or.inl ⟨_, rfl⟩
  | decimal => exact Or.inr ⟨_, rfl⟩

theorem fault?_eq_some_iff : type.fault? = some fault ↔ type.Oversized fault := by
  constructor
  · intro h
    cases type with
    | fixedChar length =>
      simp only [fault?, Option.ite_none_right_eq_some, Option.some.injEq] at h
      obtain ⟨hlt, rfl⟩ := h
      exact .fixedChar hlt
    | decimal places =>
      simp only [fault?, Option.ite_none_right_eq_some, Option.some.injEq] at h
      obtain ⟨hlt, rfl⟩ := h
      exact .decimal hlt
    | _ => cases h
  · rintro (h | h)
    · exact if_pos h
    · exact if_pos h

theorem fault?_eq_none_iff : type.fault? = none ↔ type.Fits := by
  simp only [Option.eq_none_iff_forall_ne_some, ne_eq, fault?_eq_some_iff, Fits]

@[simp] theorem fits_fixedChar {length : UInt32} : (fixedChar length).Fits ↔ length ≤ 255 := by
  refine ⟨fun h => UInt32.not_lt.mp fun hlt => h _ (.fixedChar hlt), fun hle fault hover => ?_⟩
  cases hover with
  | fixedChar hlt => exact UInt32.not_lt.mpr hle hlt

@[simp] theorem fits_decimal {places : UInt32} : (decimal places).Fits ↔ places ≤ 11 := by
  refine ⟨fun h => UInt32.not_lt.mp fun hlt => h _ (.decimal hlt), fun hle fault hover => ?_⟩
  cases hover with
  | decimal hlt => exact UInt32.not_lt.mpr hle hlt

@[simp] theorem fits_integer : integer.Fits := fun _ h => by cases h

@[simp] theorem fits_text : text.Fits := fun _ h => by cases h

@[simp] theorem fits_boolean : boolean.Fits := fun _ h => by cases h

/-- A scalar is too large for its column or not at all. -/
theorem fits_columnType {type : ScalarType} : type.columnType.Fits ↔ type.Fits := by
  rcases type with _ | _ | (_ | limit) | places
  all_goals simp [ScalarType.columnType, ScalarType.Fits]

end ColumnType

namespace Item

variable {items inner : List Item} {name kind : String} {flags : Flags} {type : ScalarType}

theorem fit_nil : Fit [] := fun _ _ _ h => (not_within_nil h).elim

theorem fit_scalar_cons : Fit (.scalar type name flags :: items) ↔ type.Fits ∧ Fit items := by
  simp only [Fit, within_cons, scalar.injEq, reduceCtorEq, false_and, exists_false, false_or]
  constructor
  · intro h
    refine ⟨h type name flags (Or.inl ⟨rfl, rfl, rfl⟩), fun t n f hwithin => ?_⟩
    exact h t n f (Or.inr hwithin)
  · rintro ⟨htype, hitems⟩ t n f (⟨rfl, -, -⟩ | hwithin)
    · exact htype
    · exact hitems t n f hwithin

theorem fit_file_cons : Fit (.file name flags :: items) ↔ Fit items := by
  simp [Fit, within_cons]

theorem fit_group_cons : Fit (.group name flags inner :: items) ↔ Fit inner ∧ Fit items := by
  simp [Fit, within_cons, or_imp, forall_and]

end Item

/-! ## Tables with nothing wrong but sizes -/

/-- The table has a name and a column, and its keys name its columns. -/
structure Table.Sound (t : Table) : Prop where
  name_ne : t.name ≠ ""
  columns_ne : t.columns ≠ []
  keyColumns_subset : t.keyColumns ⊆ t.columnNames

namespace Table

variable {t : Table} {name : String}

theorem Sound.fault?_eq (h : t.Sound) : t.fault? = t.columns.findSome? fun c => c.type.fault? := by
  have hname : t.name.isEmpty = false := by simpa using h.name_ne
  have hcolumns : t.columns.isEmpty = false := by simpa using h.columns_ne
  have hkeys : t.keyColumns.find? (fun name => (t.column? name).isNone) = none := by
    rw [List.find?_eq_none]
    intro name hmem
    obtain ⟨c, hc, rfl⟩ := List.mem_map.mp (h.keyColumns_subset hmem)
    simp only [column?, Option.isNone_iff_eq_none, List.find?_eq_none]
    exact fun hnone => hnone c hc (by simp)
  simp [fault?, hname, hcolumns, hkeys]

theorem Sound.fault?_eq_none_iff (h : t.Sound) : t.fault? = none ↔ t.Fits := by
  simp only [Fits, h.fault?_eq, List.findSome?_eq_none_iff, ColumnType.fault?_eq_none_iff]

theorem Sound.fault?_eq_some_iff (h : t.Sound) {fault : TableFault} : t.fault? = some fault ↔
    ∃ before c after, t.columns = before ++ c :: after ∧ c.type.Oversized fault ∧
      ∀ c ∈ before, c.type.Fits := by
  simp only [h.fault?_eq, List.findSome?_eq_some_iff, ColumnType.fault?_eq_none_iff,
    ColumnType.fault?_eq_some_iff]

theorem sound_keyed (h : name ≠ "") : (keyed name).Sound :=
  ⟨h, by simp [keyed], by simp [keyed, keyColumns, columnNames]⟩

theorem sound_childOf (h : name ≠ "") (parent : String) : (childOf name parent).Sound :=
  ⟨h, by simp [childOf], by simp [childOf, keyColumns, columnNames]⟩

/-- Columns after the others change nothing for the keys. -/
theorem Sound.append (h : t.Sound) (columns : List Column) :
    Sound { t with columns := t.columns ++ columns } := by
  refine ⟨h.name_ne, by simp [h.columns_ne], fun name hname => ?_⟩
  have := h.keyColumns_subset hname
  simp only [columnNames, List.map_append, List.mem_append] at this ⊢
  exact Or.inl this

theorem Sound.withArity (h : t.Sound) (hparent : parentColumn ∈ t.columns) (flags : Flags) :
    (t.withArity flags).Sound := by
  unfold Table.withArity
  split
  · exact h
  · refine ⟨h.name_ne, h.columns_ne, fun name hname => ?_⟩
    simp only [addUniqueKey, keyColumns, List.flatten_append, List.mem_append, List.flatten_cons,
      List.flatten_nil, List.append_nil, List.mem_singleton] at hname
    rcases hname with (hname | hname | rfl) | hname
    · exact h.keyColumns_subset (by simp [keyColumns, hname])
    · exact h.keyColumns_subset (by simp [keyColumns, hname])
    · exact List.mem_map_of_mem hparent
    · exact h.keyColumns_subset (by simp only [keyColumns, List.mem_append, hname, or_true])

theorem parentColumn_mem_childOf (name parent : String) :
    parentColumn ∈ (childOf name parent).columns := by
  simp [childOf]

theorem sound_ofValues (h : name ≠ "") (owner : String) (type : ScalarType) (flags : Flags) :
    (ofValues name owner type flags).Sound :=
  (sound_childOf h owner).append _

theorem sound_ofFile (h : name ≠ "") (owner : String) (flags : Flags) :
    (ofFile name owner flags).Sound :=
  (((sound_childOf h owner).append _).append _).withArity
    (by simp [parentColumn_mem_childOf]) flags

theorem sound_ofSection (naming : Naming) (h : name ≠ "") (owner : String) (flags : Flags)
    (items : List Item) : (ofSection naming name owner flags items).Sound :=
  ((sound_childOf h owner).append _).withArity (by simp [parentColumn_mem_childOf]) flags

/-! ### Sizes -/

theorem fits_append {columns : List Column} : Fits { t with columns := t.columns ++ columns } ↔
    t.Fits ∧ ∀ c ∈ columns, c.type.Fits :=
  List.forall_mem_append

theorem fits_withArity {flags : Flags} : (t.withArity flags).Fits ↔ t.Fits := by
  unfold Table.withArity
  split <;> rfl

theorem fits_keyed (name : String) : (keyed name).Fits := by
  simp [Fits, keyed, idColumn]

theorem fits_childOf (name parent : String) : (childOf name parent).Fits := by
  simp [Fits, childOf, idColumn, parentColumn]

theorem fits_ofValues {owner : String} {type : ScalarType} {flags : Flags} :
    (ofValues name owner type flags).Fits ↔ type.Fits := by
  rw [ofValues, addColumn, fits_append, and_iff_right (fits_childOf _ _), List.forall_mem_singleton,
    ColumnType.fits_columnType]

theorem fits_ofFile (name owner : String) (flags : Flags) : (ofFile name owner flags).Fits := by
  rw [ofFile, fits_withArity, addColumn, fits_append, addColumn, fits_append]
  simp [fits_childOf]

theorem fits_ofSection {naming : Naming} {owner : String} {flags : Flags} {items : List Item} :
    (ofSection naming name owner flags items).Fits ↔
      ∀ c ∈ items.filterMap (Item.column? naming), c.type.Fits := by
  rw [ofSection, fits_withArity, withItems, fits_append, and_iff_right (fits_childOf _ _)]

end Table

/-! ## Names of tables -/

/-- No table has the empty name. -/
structure Naming.NamesTables (naming : Naming) : Prop where
  rootTable_ne (id : String) (revision : Int32) : naming.rootTable id revision ≠ ""
  childTable_ne (owner path name : String) : naming.childTable owner path name ≠ ""

theorem Naming.namesTables_plain (style : ColumnStyle) : (plain style).NamesTables where
  rootTable_ne id revision := by simp [plain]
  childTable_ne owner path name := by
    simp only [plain]
    split <;> simp

theorem Naming.shorten_ne_empty (limit : Nat) {name : String} (h : name ≠ "") :
    shorten limit name ≠ "" := by
  unfold shorten
  dsimp only
  split
  · exact h
  · rw [ne_eq, ← String.toList_inj, String.toList_ofList]
    exact List.append_ne_nil_of_right_ne_nil _ (List.cons_ne_nil _ _)

theorem Naming.NamesTables.shortened {naming : Naming} (h : naming.NamesTables) (limit : Nat) :
    (naming.shortened limit).NamesTables where
  rootTable_ne id revision := shorten_ne_empty limit (h.rootTable_ne id revision)
  childTable_ne owner path name := shorten_ne_empty limit (h.childTable_ne owner path name)

theorem Settings.namesTables (s : Settings) : s.naming.NamesTables := by
  unfold Settings.naming
  split
  · exact (Naming.namesTables_plain s.columns).shortened _
  · exact Naming.namesTables_plain s.columns

/-! ## The tables of a document type -/

section

variable {naming : Naming} {owner : String} {scope : Scope} {items : List Item}
  {tables : List Table}

theorem Tabulated.sound (hn : naming.NamesTables) (h : Tabulated naming owner scope items tables) :
    ∀ t ∈ tables, t.Sound := by
  induction h with
  | nil => simp
  | column _ _ ih => exact ih
  | values _ _ ih =>
    exact List.forall_mem_cons.mpr ⟨Table.sound_ofValues (hn.childTable_ne _ _ _) .., ih⟩
  | file _ ih =>
    exact List.forall_mem_cons.mpr ⟨Table.sound_ofFile (hn.childTable_ne _ _ _) .., ih⟩
  | group _ _ ihinner ih =>
    refine List.forall_mem_append.mpr ⟨ihinner, List.forall_mem_cons.mpr ⟨?_, ih⟩⟩
    exact Table.sound_ofSection naming (hn.childTable_ne _ _ _) ..

/-- Of the columns of the owner and of the tables only the scalars may be too large. -/
theorem Tabulated.fits_iff (h : Tabulated naming owner scope items tables) :
    (∀ c ∈ items.filterMap (Item.column? naming), c.type.Fits) ∧ (∀ t ∈ tables, t.Fits) ↔
      Item.Fit items := by
  induction h with
  | nil => simp [Item.fit_nil]
  | column hrep _ ih =>
    rw [Item.fit_scalar_cons, ← ih, ← and_assoc]
    simp [Item.column?, hrep, ColumnType.fits_columnType]
  | values hrep _ ih =>
    rw [Item.fit_scalar_cons, ← ih, and_left_comm]
    simp [Item.column?, hrep, Table.fits_ofValues]
  | file _ ih =>
    rw [Item.fit_file_cons, ← ih]
    simp [Item.column?, Table.fits_ofFile]
  | group _ _ ihinner ih =>
    -- The items of the section are columns of its table, which stands among the others.
    rw [Item.fit_group_cons, ← ih, ← ihinner]
    simp [Item.column?, Table.fits_ofSection, or_imp, forall_and]
    tauto

variable {doc : Document} {d : Decomposition}

theorem sound_of_decompose (hn : naming.NamesTables) (h : doc.decompose naming = .ok d) :
    ∀ t ∈ d.root :: d.children.reverse, t.Sound := by
  obtain ⟨hroot, ht⟩ := decompose_eq_ok_iff.mp h
  simp only [List.forall_mem_cons, List.mem_reverse]
  refine ⟨?_, ht.sound hn⟩
  rw [hroot]
  exact (Table.sound_keyed (hn.rootTable_ne _ _)).append _

theorem fits_iff_of_decompose (h : doc.decompose naming = .ok d) :
    (∀ t ∈ d.root :: d.children.reverse, t.Fits) ↔ Item.Fit doc.items := by
  obtain ⟨hroot, ht⟩ := decompose_eq_ok_iff.mp h
  simp only [List.forall_mem_cons, List.mem_reverse]
  rw [← ht.fits_iff, hroot, Table.withItems, Table.fits_append,
    and_iff_right (Table.fits_keyed _)]

end

/-! ## Outcomes -/

section

variable {c : Compiler} {doc : Document} {d : Decomposition}

/-- Where a document type has tables, it has a script if no scalar is too large. -/
theorem compile_eq_ok_iff_of_decompose (hn : c.naming.NamesTables)
    (h : doc.decompose c.naming = .ok d) :
    (∃ sql, c.compile doc = .ok sql) ↔ Item.Fit doc.items := by
  have hsound := sound_of_decompose hn h
  rw [compile_eq_of_decompose h, ← fits_iff_of_decompose h]
  simp only [script_eq_ok_iff, emissionOrder_of_decompose h, Except.ok.injEq, exists_eq_left']
  constructor
  · rintro ⟨sql, hfault, -⟩ t ht
    exact (hsound t ht).fault?_eq_none_iff.mp (hfault t ht)
  · intro hfits
    exact ⟨_, fun t ht => (hsound t ht).fault?_eq_none_iff.mpr (hfits t ht), rfl⟩

/-- Where a document type has tables, the first that is too large is the reason that there is no
script. -/
theorem compile_eq_error_iff_of_decompose (hn : c.naming.NamesTables)
    (h : doc.decompose c.naming = .ok d) {e : Error} :
    c.compile doc = .error e ↔ ∃ t fault,
      FirstOversized (d.root :: d.children.reverse) t fault ∧ e = .render t.name fault := by
  have hsound := sound_of_decompose hn h
  rw [compile_eq_of_decompose h, script_eq_error_iff, emissionOrder_of_decompose h]
  simp only [reduceCtorEq, Except.ok.injEq, false_or]
  constructor
  · rintro ⟨pre, t, post, fault, htables, hpre, hfault, rfl⟩
    rw [htables] at hsound
    obtain ⟨before, c, after, hcolumns, hover, hbefore⟩ :=
      (hsound t (by simp)).fault?_eq_some_iff.mp hfault
    refine ⟨t, fault, ⟨pre, post, before, c, after, htables, hcolumns, hover, ?_, hbefore⟩, rfl⟩
    intro u hu
    exact (hsound u (by simp [hu])).fault?_eq_none_iff.mp (hpre u hu)
  · rintro ⟨t, fault, ⟨pre, post, before, c, after, htables, hcolumns, hover, hpre, hbefore⟩, rfl⟩
    rw [htables] at hsound
    refine ⟨pre, t, post, fault, htables, ?_, ?_, rfl⟩
    · intro u hu
      exact (hsound u (by simp [hu])).fault?_eq_none_iff.mpr (hpre u hu)
    · exact (hsound t (by simp)).fault?_eq_some_iff.mpr ⟨before, c, after, hcolumns, hover, hbefore⟩

/-- Where a document type has no tables, an item of an unknown kind is the reason. -/
theorem compile_eq_error_of_not_known (c : Compiler) (h : ¬Item.Known doc.items) :
    ∃ path name kind, c.compile doc = .error (.unrecognizedKind path name kind) := by
  obtain ⟨around, kind, name, hfirst⟩ := Item.exists_firstForeign? [] h
  exact ⟨trailOf around, name, kind, compile_eq_error_of_decompose (decompose_eq_error hfirst _)⟩

end

/-- Under any settings a document type has a script exactly when it has no item of an unknown kind
and no scalar that is too large. An item of an unknown kind is the reason whatever else is wrong,
and otherwise the first table in the order of creation with a column that is too large. No other
error can come. -/
theorem compile_outcome (s : Settings) (doc : Document) :
    ((∃ sql, s.compiler.compile doc = .ok sql) ↔ Item.Known doc.items ∧ Item.Fit doc.items) ∧
    (¬Item.Known doc.items → ∃ path name kind,
      s.compiler.compile doc = .error (.unrecognizedKind path name kind)) ∧
    (Item.Known doc.items → ∃ d, s.compiler.decompose doc = .ok d ∧
      ∀ e, s.compiler.compile doc = .error e ↔ ∃ t fault,
        FirstOversized (d.root :: d.children.reverse) t fault ∧ e = .render t.name fault) ∧
    ∀ table column tables, ∀ e ∈ [Error.render table .emptyName, .render table .noColumns,
      .render table (.unknownKeyColumn column), .dependencyCycle tables],
      s.compiler.compile doc ≠ .error e := by
  have hn : s.compiler.naming.NamesTables := s.namesTables
  by_cases hknown : Item.Known doc.items
  · obtain ⟨d, hd⟩ := exists_decompose s.compiler.naming hknown
    have herror := fun e : Error => compile_eq_error_iff_of_decompose (e := e) hn hd
    refine ⟨?_, fun h => (h hknown).elim, fun _ => ⟨d, hd, herror⟩, ?_⟩
    · rw [and_iff_right hknown]
      exact compile_eq_ok_iff_of_decompose hn hd
    · intro table column tables e hmem he
      obtain ⟨t, fault, ⟨_, _, _, _, _, _, _, hover, _⟩, rfl⟩ := (herror e).mp he
      rcases hover.fault_eq with ⟨n, rfl⟩ | ⟨n, rfl⟩ <;> simp at hmem
  · obtain ⟨path, name, kind, herror⟩ := compile_eq_error_of_not_known s.compiler hknown
    refine ⟨?_, fun _ => ⟨path, name, kind, herror⟩, fun h => (hknown h).elim, ?_⟩
    · simp [herror, hknown]
    · intro table column tables e hmem he
      obtain rfl := Except.error.inj (herror.symm.trans he)
      simp at hmem

/-- The default compiler is one of them. -/
example : ({} : Settings).compiler = {} :=
  rfl

end DocTables
