import DocTables.Proofs.Layout
import DocTables.Proofs.Ownership
import Mathlib.Data.List.Basic

/-!
# Names that need no shortening

If the names of a document type's tables and columns are short enough for a limit, nothing changes
when they are shortened to it, once or with further limits that allow them too
(`decompose_foldl_shortened`).

The name of a table is made from the name of its owner, so that one shortened name would change the
names of all the tables below. Two namings that agree on the names that one of them gives are
followed down the items (`Tabulated.congr`) : what is around an item has the same name under both,
and so has the item.
-/

namespace DocTables

namespace Naming

/-- `naming'` gives the same names as `naming` where these have the property `p`, and names sections
in paths in the same way. -/
structure AgreesOn (p : String → Prop) (naming naming' : Naming) : Prop where
  rootTable_eq {id : String} {revision : Int32} :
    p (naming.rootTable id revision) → naming'.rootTable id revision = naming.rootTable id revision
  childTable_eq {owner path name : String} : p (naming.childTable owner path name) →
    naming'.childTable owner path name = naming.childTable owner path name
  pathSegment_eq (name : String) : naming'.pathSegment name = naming.pathSegment name
  column_eq {name : String} : p (naming.column name) → naming'.column name = naming.column name

variable {naming : Naming}

theorem AgreesOn.refl (p : String → Prop) (naming : Naming) : naming.AgreesOn p naming where
  rootTable_eq _ := rfl
  childTable_eq _ := rfl
  pathSegment_eq _ := rfl
  column_eq _ := rfl

theorem shorten_of_le {limit : Nat} {name : String} (h : name.length ≤ effectiveLimit limit) :
    shorten limit name = name :=
  if_pos h

/-- One more limit is of no effect on names that were given so far and that it allows. -/
theorem AgreesOn.shortened {p : String → Prop} {naming' : Naming} (h : naming.AgreesOn p naming')
    {limit : Nat} (hp : ∀ name, p name → name.length ≤ effectiveLimit limit) :
    naming.AgreesOn p (naming'.shortened limit) where
  rootTable_eq hname :=
    (congrArg (shorten limit) (h.rootTable_eq hname)).trans (shorten_of_le (hp _ hname))
  childTable_eq hname :=
    (congrArg (shorten limit) (h.childTable_eq hname)).trans (shorten_of_le (hp _ hname))
  pathSegment_eq := h.pathSegment_eq
  column_eq hname :=
    (congrArg (shorten limit) (h.column_eq hname)).trans (shorten_of_le (hp _ hname))

theorem AgreesOn.foldl_shortened {p : String → Prop} {naming' : Naming}
    (h : naming.AgreesOn p naming') {limits : List Nat}
    (hp : ∀ name, p name → ∀ limit ∈ limits, name.length ≤ effectiveLimit limit) :
    naming.AgreesOn p (limits.foldl Naming.shortened naming') := by
  induction limits generalizing naming' with
  | nil => exact h
  | cons limit limits ih =>
    simp only [List.forall_mem_cons] at hp
    exact ih (h.shortened fun name hname => (hp name hname).1) fun name hname => (hp name hname).2

end Naming

/-! ## Tables under two namings -/

variable {p : String → Prop} {naming naming' : Naming} {owner : String} {scope : Scope}
  {items : List Item} {tables : List Table}

/-- The names of the table and of its columns have the property. -/
def Table.NamedBy (p : String → Prop) (t : Table) : Prop := p t.name ∧ ∀ c ∈ t.columns, p c.name

theorem Scope.enter_congr (h : naming.AgreesOn p naming') (scope : Scope) (name : String) :
    scope.enter naming' name = scope.enter naming name := by
  rw [Scope.enter, Scope.enter, h.pathSegment_eq]

theorem filterMap_column?_congr (h : naming.AgreesOn p naming')
    (hp : ∀ c ∈ items.filterMap (Item.column? naming), p c.name) :
    items.filterMap (Item.column? naming') = items.filterMap (Item.column? naming) := by
  refine List.filterMap_congr fun x hx => ?_
  cases x with
  | scalar type name flags =>
    cases hrep : flags.repeated with
    | true => simp [Item.column?, hrep]
    | false =>
      have hname : p (naming.column name) := by
        refine hp ⟨naming.column name, type.columnType, flags.optional⟩ ?_
        exact List.mem_filterMap.mpr ⟨_, hx, by simp [Item.column?, hrep]⟩
      simp [Item.column?, hrep, h.column_eq hname]
  | _ => rfl

theorem Table.ofSection_congr (h : naming.AgreesOn p naming') {name : String} {flags : Flags}
    (hp : (Table.ofSection naming name owner flags items).NamedBy p) :
    Table.ofSection naming' name owner flags items =
      Table.ofSection naming name owner flags items := by
  rw [ofSection_eq naming name owner name] at hp ⊢
  rw [ofSection_eq naming' name owner name, Item.table, Item.table, Item.ownColumns,
    Item.ownColumns,
    filterMap_column?_congr h fun c hc => hp.2 c (by simp [Item.table, Item.ownColumns, hc])]

/-- What items give under a naming, they give under every naming that agrees with it on the names
that are in it. -/
theorem Tabulated.congr (h : naming.AgreesOn p naming')
    (ht : Tabulated naming owner scope items tables) (hp : ∀ t ∈ tables, t.NamedBy p) :
    Tabulated naming' owner scope items tables := by
  induction ht with
  | nil => exact .nil
  | column hrep _ ih => exact .column hrep (ih hp)
  | values hrep _ ih =>
    obtain ⟨hown, hrest⟩ := List.forall_mem_cons.mp hp
    rw [← h.childTable_eq hown.1]
    exact .values hrep (ih hrest)
  | file _ ih =>
    obtain ⟨hown, hrest⟩ := List.forall_mem_cons.mp hp
    rw [← h.childTable_eq (by simpa using hown.1)]
    exact .file (ih hrest)
  | group _ _ ihinner ih =>
    rw [List.forall_mem_append, List.forall_mem_cons] at hp
    obtain ⟨hbelow, hown, hrest⟩ := hp
    have hname := h.childTable_eq (by simpa using hown.1)
    rw [← Table.ofSection_congr h hown, ← hname]
    refine .group ?_ (ih hrest)
    rw [hname, Scope.enter_congr h]
    exact ihinner hbelow

theorem decompose_congr (h : naming.AgreesOn p naming') {doc : Document} {d : Decomposition}
    (hd : doc.decompose naming = .ok d) (hp : ∀ t ∈ d.tables, t.NamedBy p) :
    doc.decompose naming' = .ok d := by
  obtain ⟨hroot, ht⟩ := decompose_eq_ok_iff.mp hd
  obtain ⟨hrootNamed, hchildren⟩ := List.forall_mem_cons.mp hp
  rw [hroot] at hrootNamed
  have hname := h.rootTable_eq hrootNamed.1
  rw [decompose_eq_ok_iff, hname, hroot]
  refine ⟨?_, ht.congr h hchildren⟩
  rw [Table.withItems, Table.withItems,
    filterMap_column?_congr h fun c hc => hrootNamed.2 c (List.mem_append_right _ hc)]

/-- A document type whose names are short enough for every one of some limits has the same tables
and the same script when names are shortened to these limits, one after the other. If it has none,
it fails in the same way. -/
theorem decompose_foldl_shortened (naming : Naming) (limits : List Nat) (doc : Document)
    (hshort : ∀ d, doc.decompose naming = .ok d → ∀ t ∈ d.tables, ∀ limit ∈ limits,
      t.name.length ≤ max limit 18 ∧ ∀ c ∈ t.columns, c.name.length ≤ max limit 18) :
    doc.decompose (limits.foldl Naming.shortened naming) = doc.decompose naming ∧
    ∀ dialect, Compiler.compile { naming := limits.foldl Naming.shortened naming, dialect } doc =
      Compiler.compile { naming, dialect } doc := by
  have hagrees := (Naming.AgreesOn.refl
    (fun name => ∀ limit ∈ limits, name.length ≤ Naming.effectiveLimit limit)
    naming).foldl_shortened fun _ hname => hname
  have hdecompose :
      doc.decompose (limits.foldl Naming.shortened naming) = doc.decompose naming := by
    by_cases hknown : Item.Known doc.items
    · obtain ⟨d, hd⟩ := exists_decompose naming hknown
      rw [hd]
      refine decompose_congr hagrees hd fun t ht => ?_
      exact ⟨fun limit hlimit => (hshort d hd t ht limit hlimit).1,
        fun c hc limit hlimit => (hshort d hd t ht limit hlimit).2 c hc⟩
    · obtain ⟨around, kind, name, hfirst⟩ := Item.exists_firstForeign? [] hknown
      rw [decompose_eq_error hfirst, decompose_eq_error hfirst]
  refine ⟨hdecompose, fun dialect => ?_⟩
  rw [Compiler.compile, Compiler.compile, Compiler.decompose, Compiler.decompose, hdecompose]

/-- The name of one table has eighteen characters, and all limits but one are lower. -/
theorem decompose_foldl_shortened_eighteen :
    let doc : Document := .mk "i" 1 "d" [.ofItems "s" [.asRepeated (.integer "abcd"), .string "t"]]
    let limits := [0, 18, 3, 64]
    (∀ d, doc.decompose (.plain .raw) = .ok d → ∀ t ∈ d.tables, ∀ limit ∈ limits,
      t.name.length ≤ max limit 18 ∧ ∀ c ∈ t.columns, c.name.length ≤ max limit 18) ∧
    (doc.decompose (.plain .raw)).toOption.map (fun d => d.tables.map Table.name) =
      some ["data_i_r1", "data_i_r1_s_s_abcd", "data_i_r1_s"] ∧
    doc.decompose (limits.foldl Naming.shortened (.plain .raw)) = doc.decompose (.plain .raw) ∧
    Compiler.compile { naming := limits.foldl Naming.shortened (.plain .raw) } doc =
      Compiler.compile { naming := .plain .raw } doc := by
  intro doc limits
  have hnames : (doc.decompose (.plain .raw)).toOption.map (fun d => d.tables.map Table.name) =
      some ["data_i_r1", "data_i_r1_s_s_abcd", "data_i_r1_s"] := by
    decide +kernel
  have hshort : ∀ d, doc.decompose (.plain .raw) = .ok d → ∀ t ∈ d.tables, ∀ limit ∈ limits,
      t.name.length ≤ max limit 18 ∧ ∀ c ∈ t.columns, c.name.length ≤ max limit 18 := by
    have hfits : ((doc.decompose (.plain .raw)).toOption.all fun d => d.tables.all fun t =>
        t.name.length ≤ 18 && t.columns.all fun c => c.name.length ≤ 18) = true := by
      decide +kernel
    intro d hd t ht limit _
    rw [hd] at hfits
    simp only [Except.toOption, Option.all_some, List.all_eq_true, Bool.and_eq_true,
      decide_eq_true_eq] at hfits
    exact ⟨Nat.le_trans (hfits t ht).1 (Nat.le_max_right _ _),
      fun c hc => Nat.le_trans ((hfits t ht).2 c hc) (Nat.le_max_right _ _)⟩
  obtain ⟨hdecompose, hcompile⟩ := decompose_foldl_shortened (.plain .raw) limits doc hshort
  exact ⟨hshort, hnames, hdecompose, hcompile {}⟩

end DocTables
