import DocTables.Proofs.CreationOrder
import DocTables.Proofs.Rendering
import DocTables.Proofs.Tabulation

/-!
# Owners are created first

Every table of a document type but the root has a foreign key to the table that owns it. The tables
below the root are given with an owner after all that it owns, so that in the preferred order every
table refers to a name that an earlier table bears (`Tabulated.grounded_reverse`). A naming may give
one name to several tables. The name then stands for the first of them, which is no later than the
owner, and nothing is out of order (`Grounded.lt_of_refers`).

So the tables of any document type are created in the preferred order, under any naming
(`emissionOrder_decompose`).
-/

namespace DocTables

open EmissionOrder

/-! ## References to earlier names -/

/-- Every table refers to names in `known` and of tables before it alone. -/
def Grounded : List String → List Table → Prop
  | _, [] => True
  | known, t :: tables => (∀ name ∈ t.references, name ∈ known) ∧ Grounded (t.name :: known) tables

theorem Grounded.mono : ∀ {tables : List Table} {known known' : List String}, known ⊆ known' →
    Grounded known tables → Grounded known' tables
  | [], _, _, _, _ => trivial
  | _ :: _, _, _, hsub, h =>
    ⟨fun name hname => hsub (h.1 name hname), h.2.mono (List.cons_subset_cons _ hsub)⟩

theorem Grounded.append : ∀ {tables below : List Table} {known : List String},
    Grounded known tables → Grounded (tables.map Table.name ++ known) below →
      Grounded known (tables ++ below)
  | [], _, _, _, hbelow => hbelow
  | t :: tables, below, known, h, hbelow => by
    refine ⟨h.1, h.2.append (hbelow.mono fun name hname => ?_)⟩
    simp only [List.map_cons, List.cons_append, List.mem_cons, List.mem_append] at hname ⊢
    tauto

/-- A name that a table refers to is known, or an earlier table bears it. -/
theorem Grounded.exists_before : ∀ {pre post : List Table} {t : Table} {known : List String}
    {name : String}, Grounded known (pre ++ t :: post) → name ∈ t.references →
      name ∈ known ∨ ∃ u ∈ pre, u.name = name
  | [], _, _, _, _, h, hname => Or.inl (h.1 _ hname)
  | u :: pre, _, _, _, _, h, hname => by
    rcases Grounded.exists_before h.2 hname with hmem | ⟨v, hv, rfl⟩
    · rcases List.mem_cons.mp hmem with rfl | hmem
      · exact Or.inr ⟨u, by simp, rfl⟩
      · exact Or.inl hmem
    · exact Or.inr ⟨v, by simp [hv], rfl⟩

/-- Where every name that is referred to is borne earlier, places refer to earlier ones, whichever
table a name stands for. -/
theorem Grounded.lt_of_refers {tables : List Table} (h : Grounded [] tables) {i j : Nat}
    (hij : Refers tables i j) : j < i := by
  obtain ⟨-, t, u, ht, -, hname, hfirst⟩ := hij
  obtain ⟨hi, rfl⟩ := List.getElem?_eq_some_iff.mp ht
  rw [← List.take_append_drop i tables, List.drop_eq_getElem_cons hi] at h
  obtain ⟨v, hv, hvu⟩ := (h.exists_before hname).resolve_left (List.not_mem_nil)
  by_contra hlt
  exact hfirst v ((List.take_sublist_take_left (Nat.not_lt.mp hlt)).subset hv) hvu

/-! ## The tables of a document type -/

@[simp] theorem references_ofValues (name owner : String) (type : ScalarType) (flags : Flags) :
    (Table.ofValues name owner type flags).references = [owner] :=
  rfl

@[simp] theorem references_ofFile (name owner : String) (flags : Flags) :
    (Table.ofFile name owner flags).references = [owner] := by
  unfold Table.ofFile Table.withArity
  split <;> rfl

@[simp] theorem references_ofSection (naming : Naming) (name owner : String) (flags : Flags)
    (items : List Item) : (Table.ofSection naming name owner flags items).references = [owner] := by
  unfold Table.ofSection Table.withArity
  split <;> rfl

@[simp] theorem name_ofFile (name owner : String) (flags : Flags) :
    (Table.ofFile name owner flags).name = name := by
  unfold Table.ofFile Table.withArity
  split <;> rfl

@[simp] theorem name_ofSection (naming : Naming) (name owner : String) (flags : Flags)
    (items : List Item) : (Table.ofSection naming name owner flags items).name = name := by
  unfold Table.ofSection Table.withArity
  split <;> rfl

theorem grounded_singleton {t : Table} {known : List String} {owner : String}
    (ht : t.references = [owner]) (howner : owner ∈ known) : Grounded known [t] := by
  refine ⟨fun name hname => ?_, trivial⟩
  rw [ht, List.mem_singleton] at hname
  rwa [hname]

/-- Read from the back, the tables that items give refer to their owner and to earlier tables. -/
theorem Tabulated.grounded_reverse {naming : Naming} {owner : String} {scope : Scope}
    {items : List Item} {tables : List Table} (h : Tabulated naming owner scope items tables) :
    ∀ {known : List String}, owner ∈ known → Grounded known tables.reverse := by
  induction h with
  | nil => exact fun _ => trivial
  | column _ _ ih => exact ih
  | values _ _ ih =>
    intro known howner
    rw [List.reverse_cons]
    exact (ih howner).append (grounded_singleton (references_ofValues ..) (by simp [howner]))
  | file _ ih =>
    intro known howner
    rw [List.reverse_cons]
    exact (ih howner).append (grounded_singleton (references_ofFile ..) (by simp [howner]))
  | group _ _ ihinner ih =>
    -- The table of the section owns the tables below it, and so comes before them.
    intro known howner
    rw [List.reverse_append, List.reverse_cons]
    refine Grounded.append ?_ (ihinner (by simp))
    exact (ih howner).append (grounded_singleton (references_ofSection ..) (by simp [howner]))

theorem grounded_preferred {naming : Naming} {doc : Document} {d : Decomposition}
    (h : doc.decompose naming = .ok d) : Grounded [] (preferred d.root d.children) := by
  obtain ⟨hroot, ht⟩ := decompose_eq_ok_iff.mp h
  refine ⟨fun name hname => ?_, ht.grounded_reverse ?_⟩
  · simp [hroot, Table.withItems, Table.keyed, Table.references] at hname
  · simp [hroot, Table.withItems, Table.keyed]

theorem emissionOrder_of_decompose {naming : Naming} {doc : Document} {d : Decomposition}
    (h : doc.decompose naming = .ok d) :
    emissionOrder d.root d.children = .ok (d.root :: d.children.reverse) :=
  emissionOrder_of_refers_lt fun _ _ => (grounded_preferred h).lt_of_refers

/-- The text is the statements of the tables, so that it is the script that creates them. -/
def Creates (dialect : Dialect) (sql : String) (tables : List Table) : Prop :=
  sql = String.join (tables.map fun t => t.statement dialect ++ "\n\n")

/-- A script creates the tables of its document type. -/
theorem creates_of_compile {c : Compiler} {doc : Document} {sql : String}
    (h : c.compile doc = .ok sql) : ∃ d, doc.decompose c.naming = .ok d ∧
      Creates c.dialect sql (d.root :: d.children.reverse) := by
  cases hd : doc.decompose c.naming with
  | error e => simp [Compiler.compile, Compiler.decompose, hd, bind, Except.bind] at h
  | ok d =>
    rw [compile_eq_of_decompose hd] at h
    obtain ⟨order, horder, -, hsql⟩ := script_eq_ok_iff.mp h
    rw [emissionOrder_of_decompose hd] at horder
    obtain rfl := Except.ok.inj horder
    exact ⟨d, rfl, hsql⟩

/-- The tables of a document type without items of unknown kinds are created in the preferred order,
whatever the naming is. So every one of them is created once, after tables that bear the names its
foreign keys lead to, and the compiler never finds a cycle. -/
theorem emissionOrder_decompose (naming : Naming) (doc : Document) (h : Item.Known doc.items) :
    ∃ d, doc.decompose naming = .ok d ∧
      emissionOrder d.root d.children = .ok (d.root :: d.children.reverse) ∧
      (d.root :: d.children.reverse).Perm d.tables ∧
      (∀ pre t post, d.root :: d.children.reverse = pre ++ t :: post →
        ∀ key ∈ t.foreignKeys, ∃ u ∈ pre, u.name = key.table) ∧
      ∀ dialect names,
        (Compiler.mk naming dialect).compile doc ≠ .error (.dependencyCycle names) := by
  obtain ⟨d, hd⟩ := exists_decompose naming h
  have horder := emissionOrder_of_decompose hd
  refine ⟨d, hd, horder, (List.reverse_perm d.children).cons d.root, ?_, ?_⟩
  · intro pre t post hsplit key hkey
    have hgrounded := grounded_preferred hd
    rw [preferred, hsplit] at hgrounded
    exact (hgrounded.exists_before (List.mem_map_of_mem hkey)).resolve_left List.not_mem_nil
  · intro dialect names hcompile
    rw [compile_eq_of_decompose hd] at hcompile
    rcases script_eq_error_iff.mp hcompile with he | ⟨_, t, _, fault, _, _, _, he⟩
    · rw [horder] at he
      cases he
    · cases he

/-- A naming that gives every table one name. -/
theorem emissionOrder_decompose_one_name :
    Item.Known [.group "s" {} [.file "f" {}, .scalar .integer "n" ⟨false, true⟩], .file "g" {}] ∧
    ∃ d, (Document.mk "a" 1 "d" [.group "s" {} [.file "f" {}, .scalar .integer "n" ⟨false, true⟩],
        .file "g" {}]).decompose ⟨fun _ _ => "t", fun _ _ _ => "t", id, id⟩ = .ok d ∧
      emissionOrder d.root d.children = .ok (d.root :: d.children.reverse) ∧
      ∀ pre t post, d.root :: d.children.reverse = pre ++ t :: post →
        ∀ key ∈ t.foreignKeys, ∃ u ∈ pre, u.name = key.table := by
  have hknown : Item.Known
      [.group "s" {} [.file "f" {}, .scalar .integer "n" ⟨false, true⟩], .file "g" {}] := by simp
  obtain ⟨d, hd, horder, -, hbefore, -⟩ := emissionOrder_decompose
    ⟨fun _ _ => "t", fun _ _ _ => "t", id, id⟩ (Document.mk "a" 1 "d" _) hknown
  exact ⟨hknown, d, hd, horder, hbefore⟩

end DocTables
