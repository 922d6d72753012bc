import DocTables.Compiler

/-!
# When there is a script

A script is the statements of the tables in the order of creation, and there is one exactly when
there is such an order and nothing is wrong with any of the tables (`script_eq_ok_iff`). If there is
an order but no script, the first table in the order with something wrong says why
(`script_eq_error_iff`).
-/

namespace DocTables

/-- The error that writing a table ends in, if something is wrong with it. -/
def Table.error? (t : Table) : Option Error := t.fault?.map (.render t.name)

theorem Table.render_eq (t : Table) (d : Dialect) : t.render d =
    match t.error? with
    | some e => .error e
    | none => .ok (t.statement d) := by
  rw [Table.render, Table.error?]
  cases t.fault? <;> rfl

theorem Table.error?_eq_none_iff {t : Table} : t.error? = none ↔ t.fault? = none := by
  rw [Table.error?, Option.map_eq_none_iff]

theorem Table.error?_eq_some_iff {t : Table} {e : Error} :
    t.error? = some e ↔ ∃ fault, t.fault? = some fault ∧ e = .render t.name fault := by
  rw [Table.error?, Option.map_eq_some_iff]
  exact exists_congr fun fault => and_congr_right fun _ => eq_comm

theorem findSome?_error?_eq_none_iff {tables : List Table} :
    tables.findSome? Table.error? = none ↔ ∀ t ∈ tables, t.fault? = none := by
  simp only [List.findSome?_eq_none_iff, Table.error?_eq_none_iff]

/-- The first table with something wrong names the error. -/
theorem findSome?_error?_eq_some_iff {tables : List Table} {e : Error} :
    tables.findSome? Table.error? = some e ↔ ∃ pre t post fault, tables = pre ++ t :: post ∧
      (∀ u ∈ pre, u.fault? = none) ∧ t.fault? = some fault ∧ e = .render t.name fault := by
  simp only [List.findSome?_eq_some_iff, Table.error?_eq_none_iff, Table.error?_eq_some_iff]
  constructor
  · rintro ⟨pre, t, post, htables, ⟨fault, hfault, rfl⟩, hpre⟩
    exact ⟨pre, t, post, fault, htables, hpre, hfault, rfl⟩
  · rintro ⟨pre, t, post, fault, htables, hpre, hfault, rfl⟩
    exact ⟨pre, t, post, htables, ⟨fault, hfault, rfl⟩, hpre⟩

/-- Tables are written one after the other, up to the first with something wrong. -/
theorem mapM_render (d : Dialect) (tables : List Table) : tables.mapM (·.render d) =
    match tables.findSome? Table.error? with
    | some e => .error e
    | none => .ok (tables.map (·.statement d)) := by
  induction tables with
  | nil => rfl
  | cons t tables ih =>
    rw [List.mapM_cons, Table.render_eq, List.findSome?_cons, ih]
    cases t.error? with
    | some e => rfl
    | none =>
      cases tables.findSome? Table.error? <;> rfl

theorem script_eq (d : Dialect) (root : Table) (children : List Table) : script d root children =
    match emissionOrder root children with
    | .error e => .error e
    | .ok tables =>
      match tables.findSome? Table.error? with
      | some e => .error e
      | none => .ok (String.join (tables.map fun t => t.statement d ++ "\n\n")) := by
  rw [script]
  cases emissionOrder root children with
  | error e => rfl
  | ok tables =>
    simp only [bind, Except.bind, mapM_render]
    cases tables.findSome? Table.error? with
    | some e => rfl
    | none => simp [pure, Except.pure, Function.comp_def]

variable {d : Dialect} {root : Table} {children : List Table}

theorem script_eq_ok_iff {sql : String} : script d root children = .ok sql ↔
    ∃ tables, emissionOrder root children = .ok tables ∧ (∀ t ∈ tables, t.fault? = none) ∧
      sql = String.join (tables.map fun t => t.statement d ++ "\n\n") := by
  rw [script_eq]
  cases emissionOrder root children with
  | error e => simp
  | ok tables =>
    simp only [Except.ok.injEq, exists_eq_left', ← findSome?_error?_eq_none_iff]
    cases tables.findSome? Table.error? with
    | some e => simp
    | none => simp [eq_comm]

theorem script_eq_error_iff {e : Error} : script d root children = .error e ↔
    emissionOrder root children = .error e ∨
      ∃ pre t post fault, emissionOrder root children = .ok (pre ++ t :: post) ∧
        (∀ u ∈ pre, u.fault? = none) ∧ t.fault? = some fault ∧ e = .render t.name fault := by
  rw [script_eq]
  cases emissionOrder root children with
  | error e => simp
  | ok tables =>
    simp only [reduceCtorEq, Except.ok.injEq, false_or, ← findSome?_error?_eq_some_iff]
    cases tables.findSome? Table.error? with
    | some e' => simp
    | none => simp

/-- Where a document type has tables, they decide what its script is. -/
theorem compile_eq_of_decompose {c : Compiler} {doc : Document} {tables : Decomposition}
    (h : doc.decompose c.naming = .ok tables) :
    c.compile doc = script c.dialect tables.root tables.children := by
  rw [Compiler.compile, Compiler.decompose, h]
  rfl

/-- Where it has none, there is no script for the same reason. -/
theorem compile_eq_error_of_decompose {c : Compiler} {doc : Document} {e : Error}
    (h : doc.decompose c.naming = .error e) : c.compile doc = .error e := by
  rw [Compiler.compile, Compiler.decompose, h]
  rfl

end DocTables
