import DocTables.Proofs.NameOrder
import DocTables.Proofs.PublishedScripts

/-!
# Names do not disturb one another

All names share the three tables of a registry, and yet each has its own part of them,
`Registry.under`. An operation on a name reads and writes that part alone : it does there what it
does in the whole registry, with the same answer (`Registry.apply_under`), and leaves the part of
every other name as it was (`Registry.under_step_of_ne`). A script is kept under the name that is
read back from a definition, so this needs that names are read back (`Registry.ReadsName`).

So two operations on two names may change places (`Registry.isolated_run`). The registries that come
of them may differ in the order of their rows, but not in what they answer (`Registry.Alike`).
-/

namespace DocTables

/-! ## Rows -/

namespace Rows

variable {α : Type} {key : α → Key} {p : α → Bool} {row : α} {rows : List α}

/-- A row is found among those that have been chosen, if all with its key have been. -/
theorem find?_filter {k : Key} (hp : ∀ row, key row = k → p row) :
    find? key k (rows.filter p) = find? key k rows := by
  unfold find?
  rw [List.find?_filter]
  congr 1
  funext row
  by_cases hk : key row = k
  · simp [hk, hp row hk]
  · simp [hk]

theorem insert_filter (hp : ∀ row', key row' = key row → p row') :
    insert key row (rows.filter p) = (insert key row rows).map (List.filter p) := by
  rw [insert, insert, find?_filter hp]
  split
  · rfl
  · rw [Except.map, List.filter_append, List.filter_singleton, hp row rfl, cond_true]

theorem replace_filter (hp : p row) :
    replace key row (rows.filter p) = (replace key row rows).filter p := by
  rw [replace, replace, List.filter_append, List.filter_singleton, hp, cond_true, List.filter_filter,
    List.filter_filter]
  simp only [Bool.and_comm]

end Rows

namespace Registry

variable {text : DefinitionText} {medium : Medium} {r r' : Registry} {op op' : Operation}
  {ops : List Operation} {name name' other : String}

/-! ## The part of a name -/

/-- What a registry holds under a name. -/
def under (r : Registry) (name : String) : Registry where
  registrations := r.registrations.filter (·.name = name)
  definitions := r.definitions.filter (·.name = name)
  scripts := r.scripts.filter (·.name = name)

/-- Registries with the same rows of a name have the same part. -/
theorem under_congr
    (hregistrations : r.registrations.filter (·.name = name) = r'.registrations.filter (·.name = name))
    (hdefinitions : r.definitions.filter (·.name = name) = r'.definitions.filter (·.name = name))
    (hscripts : r.scripts.filter (·.name = name) = r'.scripts.filter (·.name = name)) :
    r.under name = r'.under name := by
  rw [under, under, hregistrations, hdefinitions, hscripts]

theorem registration?_under : (r.under name).registration? name = r.registration? name := by
  simp [registration?, under, List.find?_filter]

theorem definition?_under (revision : Int32) :
    (r.under name).definition? name revision = r.definition? name revision :=
  Rows.find?_filter fun _ hk => decide_eq_true (congrArg Prod.fst hk)

theorem revisions_under : (r.under name).revisions name = r.revisions name := by
  rw [revisions, revisions, under, List.filter_filter]
  refine List.filter_congr fun d _ => ?_
  by_cases hname : d.name = name <;> simp [hname]

theorem last?_under : (r.under name).last? name = r.last? name :=
  congrArg Definition.highest? revisions_under

theorem info_under {n : Registration} (hname : n.name = name) :
    (r.under name).info n = r.info n := by
  subst hname
  simp only [info, latest?, last?_under, definition?_under]

theorem info?_under : (r.under name).info? name = r.info? name := by
  rw [info?, info?, registration?_under]
  cases hn : r.registration? name with
  | none => rfl
  | some n => exact congrArg some (info_under (name_of_registration? hn))

theorem registered_under : (r.under name).registered name = r.registered name := by
  rw [registered, registered, info?_under]

theorem nextRevision_under : (r.under name).nextRevision name = r.nextRevision name := by
  rw [nextRevision, nextRevision, latest?, latest?, last?_under]

theorem document_under : (r.under name).document text name = r.document text name :=
  congrArg (readDefinition text) last?_under

theorem documentAt_under (revision : Int32) :
    (r.under name).documentAt text name revision = r.documentAt text name revision :=
  congrArg (readDefinition text) (definition?_under revision)

theorem published?_under (revision : Int32) :
    (r.under name).published? name revision = r.published? name revision :=
  Rows.find?_filter fun _ hk => decide_eq_true (congrArg Prod.fst hk)

/-! ## Operations on the part of a name -/

/-- The name that an operation is about. Opening a registry again is about all names. -/
def Operation.name? : Operation → Option String
  | .addInfo _ name _ | .updateInfo name _ _ | .publish name _ => some name
  | .addSchema doc _ | .saveDraft doc _ => some doc.name
  | .reopen => none

/-- What is read back for a publication has the name under which it is stored. -/
def ReadsName (text : DefinitionText) (r : Registry) (name : String) : Prop :=
  ∀ doc, r.document text name = .ok (some doc) → doc.name = name

theorem readsName_congr (h : r.under name = r'.under name) :
    ReadsName text r name ↔ ReadsName text r' name := by
  rw [ReadsName, ReadsName, ← document_under (r := r), ← document_under (r := r'), h]

/-- A registration of another name stands among those of no name but its own. -/
theorem filter_insertRegistration {new : Registration} {ns : List Registration} {p : Registration → Bool}
    (hp : p new = false) : (insertRegistration new ns).filter p = ns.filter p := by
  induction ns with
  | nil => simp [insertRegistration, hp]
  | cons n ns ih =>
    rw [insertRegistration]
    split
    · rw [List.filter_cons_of_neg (by simp [hp])]
    · rw [List.filter_cons, List.filter_cons, ih]

/-- The first registration of a name is the only one that is chosen by the name. -/
theorem filter_insertRegistration_self (new : Registration) {ns : List Registration}
    (hfresh : ∀ n ∈ ns, n.name ≠ new.name) :
    (insertRegistration new ns).filter (·.name = new.name) = [new] := by
  induction ns with
  | nil => simp [insertRegistration]
  | cons n ns ih =>
    rw [List.forall_mem_cons] at hfresh
    have hns : ns.filter (·.name = new.name) = [] := by simpa using hfresh.2
    rw [insertRegistration]
    split
    · simp [hfresh.1, hns]
    · simp [hfresh.1, ih hfresh.2]

/-- The result of an operation, in the part of a name. -/
def inPart {α : Type} (name : String) (result : Except Error (α × Registry)) :
    Except Error (α × Registry) :=
  result.map fun (a, r) => (a, r.under name)

theorem addInfo_under (id description : String) :
    (r.under name).addInfo id name description = inPart name (r.addInfo id name description) := by
  rw [addInfo, addInfo, info?_under]
  cases hn : r.registration? name with
  | some n => simp [info?, hn, inPart, Except.map]
  | none =>
    have hfresh : ∀ n ∈ r.registrations, n.name ≠ name := by simpa [registration?] using hn
    have hnil : r.registrations.filter (·.name = name) = [] := by simpa using hfresh
    have hself := filter_insertRegistration_self { id, name, description } hfresh
    simp only [info?, hn, Option.map_none, inPart, Except.map, under, hself]
    rw [hnil, insertRegistration]

theorem updateInfo_under (description : String) (active : Bool) :
    (r.under name).updateInfo name description active =
      inPart name (r.updateInfo name description active) := by
  let change (n : Registration) : Registration :=
    if n.name = name then { n with description, active } else n
  have hchange : { r.under name with registrations := (r.under name).registrations.map change } =
      under { r with registrations := r.registrations.map change } name := by
    have hname : ∀ n, (change n).name = n.name := by
      intro n
      simp only [change]
      split_ifs <;> rfl
    simp only [under, List.filter_map, Function.comp_def, hname]
  change (do
    let info ← registered { r.under name with
      registrations := (r.under name).registrations.map change } name
    return (info, _)) = inPart name (do
    let info ← registered { r with registrations := r.registrations.map change } name
    return (info, _))
  rw [hchange, registered_under]
  cases registered { r with registrations := r.registrations.map change } name <;> rfl

theorem addSchema_under (doc : Document) (remark : String) :
    (r.under doc.name).addSchema text doc remark =
      inPart doc.name (r.addSchema text doc remark) := by
  rw [addSchema, addSchema, registered_under, nextRevision_under]
  cases r.registered doc.name with
  | error e => rfl
  | ok info =>
    cases r.nextRevision doc.name with
    | error e => rfl
    | ok revision =>
      have hinsert : ∀ row : Definition, row.name = doc.name →
          Rows.insert Definition.key row (r.definitions.filter (·.name = doc.name)) =
            (Rows.insert Definition.key row r.definitions).map (List.filter (·.name = doc.name)) :=
        fun row hrow => Rows.insert_filter fun d hk =>
          decide_eq_true ((congrArg Prod.fst hk).trans hrow)
      change (do
        let definitions ← Rows.insert Definition.key _ (r.definitions.filter (·.name = doc.name))
        return (revision, { r.under doc.name with definitions })) = _
      rw [hinsert _ rfl]
      cases hok : Rows.insert Definition.key (definitionOf text info.id revision doc remark)
        r.definitions with
      | error e => simp [hok, inPart, bind, Except.bind, Except.map]
      | ok definitions =>
        simp [hok, inPart, bind, Except.bind, Except.map, under, pure, Except.pure]

theorem saveDraft_under (doc : Document) (remark : String) :
    (r.under doc.name).saveDraft text doc remark =
      (r.saveDraft text doc remark).map (·.under doc.name) := by
  rw [saveDraft, saveDraft, registered_under]
  cases r.registered doc.name with
  | error e => rfl
  | ok info =>
    have hreplace : ∀ row : Definition, row.name = doc.name →
        Rows.replace Definition.key row (r.definitions.filter (·.name = doc.name)) =
          (Rows.replace Definition.key row r.definitions).filter (·.name = doc.name) :=
      fun row hrow => Rows.replace_filter (decide_eq_true hrow)
    simp only [bind, Except.bind, pure, Except.pure, Except.map, under]
    rw [hreplace _ rfl]

theorem publish_under (h : ReadsName text r name) (c : Compiler) :
    (r.under name).publish text name c = inPart name (r.publish text name c) := by
  rw [publish, publish, document_under]
  cases hdoc : r.document text name with
  | error e => rfl
  | ok found =>
    cases found with
    | none => rfl
    | some doc =>
      cases hscript : c.compile doc with
      | error e => simp [hscript, inPart, bind, Except.bind, Except.map]
      | ok script =>
        have hreplace : Rows.replace Published.key ⟨doc.name, doc.revision, script⟩
            (r.scripts.filter (·.name = name)) =
            (Rows.replace Published.key ⟨doc.name, doc.revision, script⟩ r.scripts).filter
              (·.name = name) := Rows.replace_filter (decide_eq_true (h doc hdoc))
        simp only [hscript, inPart, bind, Except.bind, pure, Except.pure, Except.map, under, hreplace]

/-- An operation on a name does in the part of the name what it does in the whole registry. -/
theorem apply_under (hop : op.name? = some name) (h : ReadsName text r name) :
    (r.under name).apply text medium op = inPart name (r.apply text medium op) := by
  cases op with
  | addInfo id new description =>
    obtain rfl := Option.some.inj hop
    rw [apply, addInfo_under, apply, inPart, inPart]
    cases r.addInfo id new description <;> rfl
  | updateInfo of description active =>
    obtain rfl := Option.some.inj hop
    rw [apply, updateInfo_under, apply, inPart, inPart]
    cases r.updateInfo of description active <;> rfl
  | addSchema doc remark =>
    obtain rfl := Option.some.inj hop
    rw [apply, addSchema_under, apply, inPart, inPart]
    cases r.addSchema text doc remark <;> rfl
  | saveDraft doc remark =>
    obtain rfl := Option.some.inj hop
    rw [apply, saveDraft_under, apply, inPart]
    cases r.saveDraft text doc remark <;> rfl
  | publish of c =>
    obtain rfl := Option.some.inj hop
    rw [apply, publish_under h, apply, inPart, inPart]
    cases r.publish text of c <;> rfl
  | reopen => cases hop

variable (medium) in
theorem step_under (hop : op.name? = some name) (h : ReadsName text r name) :
    (r.under name).step text medium op =
      ((r.step text medium op).1, (r.step text medium op).2.under name) := by
  rw [step, apply_under hop h, step, inPart]
  cases r.apply text medium op <;> rfl

/-- An operation that succeeds leaves the parts of the other names as they were. -/
theorem under_of_leads (hleads : Leads text r op r') (hop : op.name? = some name)
    (h : ReadsName text r name) (hne : other ≠ name) : r'.under other = r.under other := by
  cases hleads with
  | @addInfo id new description info r' hok =>
    obtain rfl := Option.some.inj hop
    obtain ⟨-, -, rfl⟩ := addInfo_eq_ok_iff.mp hok
    exact under_congr (filter_insertRegistration (decide_eq_false (Ne.symm hne))) rfl rfl
  | @updateInfo of description active info r' hok =>
    obtain rfl := Option.some.inj hop
    obtain ⟨-, -, -, rfl⟩ := updateInfo_eq_ok_iff.mp hok
    have hfilter : (r.registrations.map fun n =>
        if n.name = of then { n with description, active } else n).filter (·.name = other) =
        r.registrations.filter (·.name = other) := by
      induction r.registrations with
      | nil => rfl
      | cons n ns ih =>
        rw [List.map_cons, List.filter_cons, List.filter_cons, ih]
        by_cases hname : n.name = of <;> simp [hname, Ne.symm hne]
    exact under_congr hfilter rfl rfl
  | @addSchema doc remark number r' hok =>
    obtain rfl := Option.some.inj hop
    obtain ⟨n, -, -, rfl⟩ := addSchema_eq_ok_iff.mp hok
    exact under_congr rfl (by simp [definitionOf, Ne.symm hne]) rfl
  | @saveDraft doc remark r' hok =>
    obtain rfl := Option.some.inj hop
    obtain ⟨n, -, rfl⟩ := saveDraft_eq_ok_iff.mp hok
    refine under_congr rfl (Rows.filter_replace_of_neg (decide_eq_false (Ne.symm hne)) ?_) rfl
    rintro d hd hk
    exact hne ((of_decide_eq_true hd).symm.trans (congrArg Prod.fst hk))
  | @publish of c p r' hok =>
    obtain rfl := Option.some.inj hop
    obtain ⟨doc, script, hdoc, -, rfl, rfl⟩ := publish_eq_ok_iff.mp hok
    have hname : doc.name = of := h doc hdoc
    refine under_congr rfl rfl (Rows.filter_replace_of_neg (decide_eq_false ?_) ?_)
    · exact fun heq => hne (heq.symm.trans hname)
    · rintro p hp hk
      exact hne ((of_decide_eq_true hp).symm.trans ((congrArg Prod.fst hk).trans hname))
  | reopen => cases hop

/-- What every successful operation that is about a name keeps of a registry, every one keeps. -/
theorem step_of_leads {P : Registry → Prop} (hop : op.name? = some name) (h : P r)
    (hleads : ∀ r', Leads text r op r' → P r') : P (r.step text medium op).2 := by
  rw [step]
  cases hok : r.apply text medium op with
  | error e => exact h
  | ok result =>
    refine hleads _ (leads_of_apply (fun hreopen => ?_) hok)
    rw [hreopen] at hop
    cases hop

theorem under_step_of_ne (hop : op.name? = some name) (h : ReadsName text r name)
    (hne : other ≠ name) : (r.step text medium op).2.under other = r.under other :=
  step_of_leads (P := fun r' => r'.under other = r.under other) hop rfl fun _ hleads =>
    under_of_leads hleads hop h hne

theorem ordered_step (hop : op.name? = some name) (h : r.Ordered) :
    (r.step text medium op).2.Ordered :=
  step_of_leads hop h fun _ hleads => h.of_leads hleads

/-! ## Answers -/

/-- Two registries answer alike whatever is asked about a name. -/
structure AlikeAt (text : DefinitionText) (r r' : Registry) (name : String) : Prop where
  info? : r.info? name = r'.info? name
  document : r.document text name = r'.document text name
  documentAt (revision : Int32) : r.documentAt text name revision = r'.documentAt text name revision
  draft : r.draft text name = r'.draft text name
  published? (revision : Int32) : r.published? name revision = r'.published? name revision

/-- Two registries answer alike whatever is asked. -/
structure Alike (text : DefinitionText) (r r' : Registry) : Prop where
  at_name (name : String) : AlikeAt text r r' name
  infoById? (id : String) : r.infoById? id = r'.infoById? id
  infos : r.infos = r'.infos

/-- The part of a name has all the answers about it. -/
theorem alikeAt_of_under (h : r.under name = r'.under name) : AlikeAt text r r' name where
  info? := by rw [← info?_under (r := r), h, info?_under]
  document := by rw [← document_under (r := r), h, document_under]
  documentAt revision := by rw [← documentAt_under (r := r), h, documentAt_under]
  draft := by rw [draft, draft, ← documentAt_under (r := r), h, documentAt_under]
  published? revision := by rw [← published?_under (r := r), h, published?_under]

/-- The parts of all names and the order of the names have all answers. -/
theorem alike_of_under (hr : r.Ordered) (hr' : r'.Ordered)
    (h : ∀ name, r.under name = r'.under name) : Alike text r r' := by
  have hregistrations : r.registrations = r'.registrations := by
    refine hr.ext hr' fun n => ?_
    have hmem : ∀ r : Registry, n ∈ r.registrations ↔ n ∈ (r.under n.name).registrations := by
      simp [under]
    rw [hmem r, h, ← hmem r']
  have hinfo : ∀ n, r.info n = r'.info n := by
    intro n
    rw [← info_under (r := r) rfl, h, info_under rfl]
  exact {
    at_name := fun name => alikeAt_of_under (h name)
    infoById? := fun id => by rw [Registry.infoById?, hregistrations, Registry.infoById?, funext hinfo]
    infos := by rw [Registry.infos, hregistrations, Registry.infos, funext hinfo] }

/-! ## Changing places -/

/-- An operation is answered as before, and does the same in the part of its name, after an operation
on another name. -/
theorem step_after (hop : op.name? = some name) (h : ReadsName text r name)
    (hop' : op'.name? = some name') (h' : ReadsName text r name') (hne : name ≠ name') :
    ((r.step text medium op').2.step text medium op).1 = (r.step text medium op).1 ∧
    ((r.step text medium op').2.step text medium op).2.under name =
      (r.step text medium op).2.under name := by
  have hunder : (r.step text medium op').2.under name = r.under name := under_step_of_ne hop' h' hne
  have hstep := step_under medium hop ((readsName_congr hunder).mpr h)
  rw [hunder, step_under medium hop h] at hstep
  exact ⟨(Prod.mk.inj hstep).1.symm, (Prod.mk.inj hstep).2.symm⟩

/-- What comes of two operations, in either order, is the same in the part of every name. -/
theorem under_step_comm (hop : op.name? = some name) (h : ReadsName text r name)
    (hop' : op'.name? = some name') (h' : ReadsName text r name') (hne : name ≠ name')
    (other : String) : ((r.step text medium op).2.step text medium op').2.under other =
      ((r.step text medium op').2.step text medium op).2.under other := by
  have hafter : ReadsName text (r.step text medium op').2 name :=
    (readsName_congr (under_step_of_ne hop' h' hne)).mpr h
  have hafter' : ReadsName text (r.step text medium op).2 name' :=
    (readsName_congr (under_step_of_ne hop h hne.symm)).mpr h'
  by_cases hother : other = name
  · subst hother
    rw [under_step_of_ne hop' hafter' hne, (step_after hop h hop' h' hne).2]
  · rw [under_step_of_ne hop hafter hother]
    by_cases hother' : other = name'
    · subst hother'
      rw [(step_after hop' h' hop h hne.symm).2]
    · rw [under_step_of_ne hop' hafter' hother', under_step_of_ne hop h hother,
        under_step_of_ne hop' h' hother']

/-- What it means that an operation on a name concerns this name alone. -/
structure Isolated (text : DefinitionText) (medium : Medium) (r : Registry) (op : Operation)
    (name : String) : Prop where
  /-- What is answered about other names stays. -/
  frame (other : String) : other ≠ name → AlikeAt text (r.step text medium op).2 r other
  /-- It changes places with an operation on another name : each has the answer that it has in the
  other order. -/
  answers (op' : Operation) (name' : String) : op'.name? = some name' → name' ≠ name →
    (r.run text medium [op, op']).1 = (r.run text medium [op', op]).1.reverse
  /-- And afterwards everything is answered alike. -/
  alike (op' : Operation) (name' : String) : op'.name? = some name' → name' ≠ name →
    Alike text (r.run text medium [op, op']).2 (r.run text medium [op', op]).2

theorem isolated (hr : r.Ordered) (h : ∀ name, ReadsName text r name)
    (hop : op.name? = some name) : Isolated text medium r op name where
  frame other hne := alikeAt_of_under (under_step_of_ne hop (h name) hne)
  answers op' name' hop' hne := by
    simp only [run, List.reverse_cons, List.reverse_nil, List.nil_append, List.singleton_append]
    rw [(step_after hop (h name) hop' (h name') hne.symm).1,
      (step_after hop' (h name') hop (h name) hne).1]
  alike op' name' hop' hne :=
    alike_of_under (ordered_step hop' (ordered_step hop hr)) (ordered_step hop (ordered_step hop' hr))
      (under_step_comm hop (h name) hop' (h name') hne.symm)

/-- Whatever has been done to a registry, every operation on a name leaves what is known of other
names, and changes places with every operation on another name. -/
theorem isolated_run (text : DefinitionText) (medium : Medium) (ops : List Operation)
    (hmedium : medium = .file ∨ .reopen ∉ ops)
    (hk : Log.KeepsHeads text (empty.log text medium ops)) (op : Operation) (name : String)
    (hop : op.name? = some name) : Isolated text medium (empty.run text medium ops).2 op name :=
  isolated (ordered_run text hmedium)
    (fun name _ hdoc => ((follows_run text hmedium name).of_document hk hdoc).1) hop

/-- A publication of one name and a draft of another change places. -/
theorem isolated_run_two_names :
    let ops := [.addInfo "i" "n" "", .addSchema { name := "n" } "", .addInfo "j" "m" ""]
    let r := (empty.run .yaml .file ops).2
    let op := .publish "n" {}
    let op' := .saveDraft { name := "m" } ""
    (r.run .yaml .file [op, op']).1 = (r.run .yaml .file [op', op]).1.reverse ∧
    Alike .yaml (r.run .yaml .file [op, op']).2 (r.run .yaml .file [op', op]).2 ∧
    AlikeAt .yaml (r.step .yaml .file op).2 r "m" := by
  intro ops r op op'
  have hok : ∀ answer ∈ (empty.run .yaml .file ops).1, answer.isOk := by decide +kernel
  have hk : Log.KeepsHeads .yaml (empty.log .yaml .file ops) := by
    rw [log_eq_reverse hok]
    refine Log.forall_revision fun name id hid i s hs => ?_
    by_cases hname : "n" = name
    · subst hname
      obtain rfl : "i" = id := by simpa [ops, Log.id?] using hid
      obtain ⟨rfl, rfl⟩ : i = 0 ∧ s = ({ name := "n" }, "") := by
        simpa [ops, Log.added, List.getElem?_singleton, eq_comm] using hs
      exact keepsHead_yaml (by decide +kernel)
    · simp [ops, Log.added, hname] at hs
  have h : Isolated .yaml .file r op "n" :=
    isolated_run .yaml .file ops (Or.inl rfl) hk op "n" rfl
  exact ⟨h.answers op' "m" rfl (by decide), h.alike op' "m" rfl (by decide),
    h.frame "m" (by decide)⟩

end Registry

end DocTables
