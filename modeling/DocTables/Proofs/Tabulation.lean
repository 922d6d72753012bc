import DocTables.Decomposition

/-!
# Items and the tables that they give

`Tabulated` says which tables a list of items gives when a table of some name owns them, with one
rule for each kind of item. `tablesOfItems_eq_ok_iff` : it is what `tablesOfItems` computes, so that
a statement about all decompositions is one induction over the rules. An item of an unknown kind has
no rule. The items with tables are those with no such item among them or in their sections, at any
depth (`exists_tabulated`). The others fail at the first such item in the order of declaration
(`Item.preorder`), whatever the naming (`tablesOfItems_eq_error`).
-/

namespace DocTables

/-! ## Items at any depth -/

/-- `x` is one of the items, or of the items of a section among them, at any depth. -/
inductive Item.Within (x : Item) : List Item → Prop
  | here {items : List Item} : x ∈ items → Within x items
  | inside {items inner : List Item} {name : String} {flags : Flags} :
    .group name flags inner ∈ items → Within x inner → Within x items

/-- No item is of an unknown kind, at any depth. -/
def Item.Known (items : List Item) : Prop := ∀ kind name, ¬(Item.foreign kind name).Within items

namespace Item

variable {x y : Item} {items inner : List Item} {name kind : String} {flags : Flags}
  {type : ScalarType}

theorem not_within_nil : ¬x.Within [] := by
  rintro (h | ⟨h, -⟩) <;> simp at h

theorem within_cons : x.Within (y :: items) ↔ x = y ∨
    (∃ name flags inner, y = .group name flags inner ∧ x.Within inner) ∨ x.Within items := by
  constructor
  · rintro (h | ⟨h, hx⟩)
    · rcases List.mem_cons.mp h with rfl | h
      · exact Or.inl rfl
      · exact Or.inr (Or.inr (.here h))
    · rcases List.mem_cons.mp h with rfl | h
      · exact Or.inr (Or.inl ⟨_, _, _, rfl, hx⟩)
      · exact Or.inr (Or.inr (.inside h hx))
  · rintro (rfl | ⟨name, flags, inner, rfl, hx⟩ | (h | ⟨h, hx⟩))
    · exact .here (by simp)
    · exact .inside (List.mem_cons_self ..) hx
    · exact .here (by simp [h])
    · exact .inside (List.mem_cons_of_mem _ h) hx

theorem within_group_cons : x.Within (.group name flags inner :: items) ↔
    x = .group name flags inner ∨ x.Within inner ∨ x.Within items := by
  rw [within_cons]
  refine or_congr_right (or_congr_left ⟨?_, fun h => ⟨_, _, _, rfl, h⟩⟩)
  rintro ⟨_, _, _, heq, h⟩
  obtain ⟨-, -, rfl⟩ := group.inj heq
  exact h

@[simp] theorem known_nil : Known [] := fun _ _ => not_within_nil

@[simp] theorem known_scalar_cons : Known (.scalar type name flags :: items) ↔ Known items := by
  simp [Known, within_cons]

@[simp] theorem known_file_cons : Known (.file name flags :: items) ↔ Known items := by
  simp [Known, within_cons]

@[simp] theorem known_group_cons :
    Known (.group name flags inner :: items) ↔ Known inner ∧ Known items := by
  simp [Known, within_group_cons, forall_and]

@[simp] theorem not_known_foreign_cons : ¬Known (.foreign kind name :: items) :=
  fun h => h kind name (.here (by simp))

/-! ## Items in the order of declaration -/

mutual

/-- The item and after it what is in it, each with the names of the sections around it, the
outermost first. -/
def preorder (sections : List String) : Item → List (List String × Item)
  | .group name flags items =>
    (sections, .group name flags items) :: preorderOfItems (sections ++ [name]) items
  | item => [(sections, item)]

/-- The items of a list, and after each of them what is in it. -/
def preorderOfItems (sections : List String) : List Item → List (List String × Item)
  | [] => []
  | item :: items => item.preorder sections ++ preorderOfItems sections items

end

/-- The item is of an unknown kind. -/
def isForeign : Item → Bool
  | foreign .. => true
  | _ => false

theorem exists_of_isForeign (h : x.isForeign = true) : ∃ kind name, x = .foreign kind name := by
  cases x <;> simp_all [isForeign]

/-- The first item of an unknown kind, with the sections around it. -/
def firstForeign? (sections : List String) (items : List Item) : Option (List String × Item) :=
  (preorderOfItems sections items).find? (·.2.isForeign)

variable {sections : List String}

@[simp] theorem firstForeign?_nil : firstForeign? sections [] = none := rfl

@[simp] theorem firstForeign?_scalar_cons :
    firstForeign? sections (.scalar type name flags :: items) = firstForeign? sections items := by
  simp [firstForeign?, preorderOfItems, preorder, isForeign]

@[simp] theorem firstForeign?_file_cons :
    firstForeign? sections (.file name flags :: items) = firstForeign? sections items := by
  simp [firstForeign?, preorderOfItems, preorder, isForeign]

@[simp] theorem firstForeign?_group_cons :
    firstForeign? sections (.group name flags inner :: items) =
      (firstForeign? (sections ++ [name]) inner).or (firstForeign? sections items) := by
  simp [firstForeign?, preorderOfItems, preorder, isForeign, List.find?_append]

@[simp] theorem firstForeign?_foreign_cons :
    firstForeign? sections (.foreign kind name :: items) =
      some (sections, .foreign kind name) := by
  simp [firstForeign?, preorderOfItems, preorder, isForeign]

/-- Items of known kinds are those with no such item. -/
theorem firstForeign?_eq_none_iff : ∀ {sections : List String} {items : List Item},
    firstForeign? sections items = none ↔ Known items
  | _, [] => by simp
  | _, .scalar .. :: items => by simpa using firstForeign?_eq_none_iff
  | _, .file .. :: items => by simpa using firstForeign?_eq_none_iff
  | _, .group _ _ inner :: items => by
    rw [firstForeign?_group_cons, known_group_cons, Option.or_eq_none_iff,
      firstForeign?_eq_none_iff, firstForeign?_eq_none_iff]
  | _, .foreign .. :: items => by simp

theorem exists_firstForeign? (sections : List String) (h : ¬Known items) :
    ∃ around kind name, firstForeign? sections items = some (around, .foreign kind name) := by
  have hsome : firstForeign? sections items ≠ none := mt firstForeign?_eq_none_iff.mp h
  obtain ⟨⟨around, x⟩, hx⟩ := Option.ne_none_iff_exists'.mp hsome
  have hforeign := List.find?_some (show List.find? _ _ = _ from hx)
  obtain ⟨kind, name, rfl⟩ := exists_of_isForeign hforeign
  exact ⟨around, kind, name, hx⟩

end Item

/-- The names of the sections around an item as an error gives them. -/
def trailOf (sections : List String) : String :=
  sections.foldl (fun trail name => if trail.isEmpty then name else trail ++ "/" ++ name) ""

theorem Scope.trail_enter {scope : Scope} {sections : List String} (naming : Naming) (name : String)
    (h : scope.trail = trailOf sections) :
    (scope.enter naming name).trail = trailOf (sections ++ [name]) := by
  rw [Scope.enter, h]
  simp [trailOf]

/-! ## Tables -/

/-- The items give the tables, in their order, when the table `owner` owns them and `scope` is
around them. -/
inductive Tabulated (naming : Naming) : String → Scope → List Item → List Table → Prop
  | nil {owner : String} {scope : Scope} : Tabulated naming owner scope [] []
  /-- A scalar that does not repeat has no table. -/
  | column {owner name : String} {scope : Scope} {type : ScalarType} {flags : Flags}
    {items : List Item} {tables : List Table} :
    flags.repeated = false → Tabulated naming owner scope items tables →
    Tabulated naming owner scope (.scalar type name flags :: items) tables
  | values {owner name : String} {scope : Scope} {type : ScalarType} {flags : Flags}
    {items : List Item} {tables : List Table} :
    flags.repeated = true → Tabulated naming owner scope items tables →
    Tabulated naming owner scope (.scalar type name flags :: items)
      (.ofValues (naming.childTable owner scope.path name) owner type flags :: tables)
  | file {owner name : String} {scope : Scope} {flags : Flags} {items : List Item}
    {tables : List Table} :
    Tabulated naming owner scope items tables →
    Tabulated naming owner scope (.file name flags :: items)
      (.ofFile (naming.childTable owner scope.path name) owner flags :: tables)
  /-- The table of a section comes after those of its items. -/
  | group {owner name : String} {scope : Scope} {flags : Flags} {inner items : List Item}
    {below tables : List Table} :
    Tabulated naming (naming.childTable owner scope.path name) (scope.enter naming name) inner
      below →
    Tabulated naming owner scope items tables →
    Tabulated naming owner scope (.group name flags inner :: items)
      (below ++
        .ofSection naming (naming.childTable owner scope.path name) owner flags inner :: tables)

variable {naming : Naming} {owner : String} {scope : Scope} {items : List Item}
  {tables : List Table}

/-! ## What `tablesOfItems` computes -/

/-- If the first item has tables, the others decide. -/
theorem tablesOfItems_cons {item : Item} {own : List Table}
    (h : item.tables naming owner scope = .ok own) :
    tablesOfItems naming owner scope (item :: items) =
      (tablesOfItems naming owner scope items).map (own ++ ·) := by
  rw [tablesOfItems, h]
  cases tablesOfItems naming owner scope items <;> rfl

theorem tables_group {name : String} {flags : Flags} {inner : List Item} :
    (Item.group name flags inner).tables naming owner scope =
      (tablesOfItems naming (naming.childTable owner scope.path name) (scope.enter naming name)
        inner).map (· ++ [.ofSection naming (naming.childTable owner scope.path name) owner flags
          inner]) := by
  rw [Item.tables]
  cases tablesOfItems naming _ _ inner <;> rfl

theorem Tabulated.tablesOfItems_eq (h : Tabulated naming owner scope items tables) :
    tablesOfItems naming owner scope items = .ok tables := by
  induction h with
  | nil => rfl
  | column hrep _ ih =>
    rw [tablesOfItems_cons (by rw [Item.tables, if_neg (by simp [hrep])]), ih]
    rfl
  | values hrep _ ih =>
    rw [tablesOfItems_cons (by rw [Item.tables, if_pos hrep]), ih]
    rfl
  | file _ ih =>
    rw [tablesOfItems_cons (by rw [Item.tables]), ih]
    rfl
  | group _ _ ihinner ih =>
    rw [tablesOfItems_cons (by rw [tables_group, ihinner, Except.map]), ih]
    simp [Except.map]

/-- Items of known kinds give tables. -/
theorem exists_tabulated (naming : Naming) : ∀ (owner : String) (scope : Scope) (items : List Item),
    Item.Known items → ∃ tables, Tabulated naming owner scope items tables
  | _, _, [], _ => ⟨[], .nil⟩
  | owner, scope, .scalar type name flags :: items, h => by
    obtain ⟨tables, ht⟩ :=
      exists_tabulated naming owner scope items (Item.known_scalar_cons.mp h)
    cases hrep : flags.repeated with
    | false => exact ⟨tables, .column hrep ht⟩
    | true => exact ⟨_, .values hrep ht⟩
  | owner, scope, .file name flags :: items, h => by
    obtain ⟨tables, ht⟩ := exists_tabulated naming owner scope items (Item.known_file_cons.mp h)
    exact ⟨_, .file ht⟩
  | owner, scope, .group name flags inner :: items, h => by
    obtain ⟨hinner, hitems⟩ := Item.known_group_cons.mp h
    obtain ⟨below, hb⟩ := exists_tabulated naming _ (scope.enter naming name) inner hinner
    obtain ⟨tables, ht⟩ := exists_tabulated naming owner scope items hitems
    exact ⟨_, .group hb ht⟩
  | _, _, .foreign kind name :: items, h => (Item.not_known_foreign_cons h).elim

/-- Items that are not all of known kinds fail at the first that is not. -/
theorem tablesOfItems_eq_error (naming : Naming) {around : List String} {kind n : String} :
    ∀ (owner : String) (scope : Scope) (sections : List String) (items : List Item),
      scope.trail = trailOf sections →
      Item.firstForeign? sections items = some (around, .foreign kind n) →
      tablesOfItems naming owner scope items = .error (.unrecognizedKind (trailOf around) n kind)
  | _, _, _, [], _, h => by simp at h
  | owner, scope, sections, .scalar type name flags :: items, hscope, h => by
    rw [Item.firstForeign?_scalar_cons] at h
    obtain ⟨own, hown⟩ :
        ∃ own, (Item.scalar type name flags).tables naming owner scope = .ok own := by
      rw [Item.tables]
      split <;> exact ⟨_, rfl⟩
    rw [tablesOfItems_cons hown, tablesOfItems_eq_error naming owner scope sections items hscope h]
    rfl
  | owner, scope, sections, .file name flags :: items, hscope, h => by
    rw [Item.firstForeign?_file_cons] at h
    rw [tablesOfItems_cons (by rw [Item.tables]),
      tablesOfItems_eq_error naming owner scope sections items hscope h]
    rfl
  | owner, scope, sections, .group name flags inner :: items, hscope, h => by
    rw [Item.firstForeign?_group_cons, Option.or_eq_some_iff] at h
    rcases h with h | ⟨hnone, h⟩
    · have he := tablesOfItems_eq_error naming (naming.childTable owner scope.path name)
        (scope.enter naming name) (sections ++ [name]) inner
        (Scope.trail_enter naming name hscope) h
      rw [tablesOfItems, tables_group, he]
      rfl
    · obtain ⟨below, hb⟩ := exists_tabulated naming (naming.childTable owner scope.path name)
        (scope.enter naming name) inner (Item.firstForeign?_eq_none_iff.mp hnone)
      rw [tablesOfItems_cons (by rw [tables_group, hb.tablesOfItems_eq, Except.map]),
        tablesOfItems_eq_error naming owner scope sections items hscope h]
      rfl
  | _, scope, sections, .foreign kind name :: items, hscope, h => by
    rw [Item.firstForeign?_foreign_cons] at h
    obtain ⟨rfl, rfl, rfl⟩ : sections = around ∧ _ ∧ _ := by simpa using h
    rw [tablesOfItems, Item.tables, hscope]
    rfl

theorem tablesOfItems_eq_ok_iff :
    tablesOfItems naming owner scope items = .ok tables ↔
      Tabulated naming owner scope items tables := by
  constructor
  · intro h
    by_cases hknown : Item.Known items
    · obtain ⟨tables', ht⟩ := exists_tabulated naming owner scope items hknown
      rw [ht.tablesOfItems_eq] at h
      exact Except.ok.inj h ▸ ht
    · obtain ⟨around, kind, name, hforeign⟩ := Item.exists_firstForeign? [scope.trail] hknown
      simp [tablesOfItems_eq_error naming owner scope _ items rfl hforeign] at h
  · exact Tabulated.tablesOfItems_eq

/-! ## Documents -/

theorem decompose_eq_ok_iff {doc : Document} {d : Decomposition} :
    doc.decompose naming = .ok d ↔
      d.root = (Table.keyed (naming.rootTable doc.id doc.revision)).withItems naming doc.items ∧
        Tabulated naming (naming.rootTable doc.id doc.revision) {} doc.items d.children := by
  rw [← tablesOfItems_eq_ok_iff, Document.decompose]
  obtain ⟨root, children⟩ := d
  cases tablesOfItems naming (naming.rootTable doc.id doc.revision) {} doc.items with
  | error e => simp [bind, Except.bind]
  | ok tables => simp [bind, Except.bind, pure, Except.pure, eq_comm]

/-- A document type without items of unknown kinds has tables. -/
theorem exists_decompose (naming : Naming) {doc : Document} (h : Item.Known doc.items) :
    ∃ d, doc.decompose naming = .ok d := by
  obtain ⟨children, ht⟩ := exists_tabulated naming (naming.rootTable doc.id doc.revision) {} _ h
  exact ⟨⟨_, children⟩, decompose_eq_ok_iff.mpr ⟨rfl, ht⟩⟩

/-- A document type with an item of an unknown kind has none, because of the first of them. -/
theorem decompose_eq_error {doc : Document} {around : List String} {kind name : String}
    (h : Item.firstForeign? [] doc.items = some (around, .foreign kind name)) (naming : Naming) :
    doc.decompose naming = .error (.unrecognizedKind (trailOf around) name kind) := by
  rw [Document.decompose, tablesOfItems_eq_error naming _ {} [] doc.items rfl h]
  rfl

end DocTables
