import DocTables.Proofs.JsonGrammar
import Mathlib.Logic.Relation

/-!
# What a JSON text may say in other ways

The fields of a map may stand in any order, there may be others that are not known, and a kind has
several spellings. `Json.Reworded` is one such change, in the document type or in an item at any
depth, and what comes of any number of them, made or undone, is
`Relation.EqvGen (Json.Reworded Document.keys)`.

A field is found by its key alone (`Json.field_perm`, `Json.field_cons_of_ne`), so an item is read
from both trees or from neither, and is the same (`Item.read_reworded`). `Document.ofJson_grammar`
says of the texts that are accepted what they are, and that they are read alike.
-/

namespace DocTables

/-! ## Other words -/

namespace Kind

/-- The spellings of each kind, in lower case. -/
def aliases : List (List String) :=
  [["integer", "int"], ["boolean", "bool"], ["string", "str"], ["decimal"], ["file"], ["section"]]

/-- Both texts spell one kind, in upper or lower case. -/
def Spell (s t : String) : Prop := ∃ names ∈ aliases,
  String.ofList (s.toList.map Char.toLower) ∈ names ∧
  String.ofList (t.toList.map Char.toLower) ∈ names

theorem Spell.exists_ofText? {s t : String} (h : Spell s t) :
    ∃ kind, ofText? s = some kind ∧ ofText? t = some kind := by
  obtain ⟨names, hnames, hs, ht⟩ := h
  have haliases : ∀ names ∈ aliases, ∃ kind, ∀ name ∈ names,
      spellings.lookup name = some kind := by
    simp only [aliases, List.forall_mem_cons]
    exact ⟨⟨.integer, by decide⟩, ⟨.boolean, by decide⟩, ⟨.string, by decide⟩,
      ⟨.decimal, by decide⟩, ⟨.file, by decide⟩, ⟨.group, by decide⟩, nofun⟩
  obtain ⟨kind, hkind⟩ := haliases names hnames
  exact ⟨kind, hkind _ hs, hkind _ ht⟩

end Kind

namespace Json

/-- The second tree is the first with one change that should make no difference, in the record of
which these are the keys that are known, or in an item that it holds. -/
inductive Reworded : List String → Json → Json → Prop where
  | reordered {keys : List String} {fields fields' : List (String × Json)}
      (h : fields.Perm fields') : Reworded keys (record fields) (record fields')
  | extended {keys : List String} {key : String} (h : key ∉ keys) (v : Json)
      (fields : List (String × Json)) : Reworded keys (record fields) (record ((key, v) :: fields))
  | respelled {kind kind' : String} (h : Kind.Spell kind kind') (fields : List (String × Json)) :
      Reworded Item.keys (record (("type", text (some kind)) :: fields))
        (record (("type", text (some kind')) :: fields))
  | within {keys : List String} {x y : Json} (h : Reworded Item.keys x y)
      (before after : List Json) (fields : List (String × Json)) :
      Reworded keys (record (("items", list (before ++ x :: after)) :: fields))
        (record (("items", list (before ++ y :: after)) :: fields))

/-! ## Fields -/

section

variable {fields fields' : List (String × Json)} {key key' : String} {v : Json}

/-- The order of the fields does not matter. -/
theorem field_perm (h : fields.Perm fields') (key : String) :
    source.field fields key = source.field fields' key := by
  have hfilter := h.filter (·.1 == key)
  unfold Source.field
  generalize fields.filter (·.1 == key) = found, fields'.filter (·.1 == key) = found' at hfilter ⊢
  match found, found', hfilter with
  | [], found', hfilter => rw [hfilter.nil_eq]
  | [field], found', hfilter => rw [hfilter.singleton_eq]
  | _ :: _ :: _, [], hfilter | _ :: _ :: _, [_], hfilter => simpa using hfilter.length_eq
  | _ :: _ :: _, _ :: _ :: _, _ => rfl

theorem field_cons_of_ne (h : key' ≠ key) (v : Json) (fields : List (String × Json)) :
    source.field ((key', v) :: fields) key = source.field fields key := by
  simp [Source.field, h]

/-- A field that stands first is found if it does not stand again. -/
theorem field_cons_self (key : String) (v : Json) (fields : List (String × Json)) :
    source.field ((key, v) :: fields) key =
      if fields.countP (·.1 == key) = 0 then some (some v) else none := by
  rw [List.countP_eq_length_filter, Source.field, List.filter_cons_of_pos (by simp)]
  cases fields.filter (·.1 == key) <;> rfl

variable {β : Type} {read : Json → Option β} {default : β}

theorem fieldD_cons_of_ne (h : key' ≠ key) :
    source.fieldD ((key', v) :: fields) key read default =
      source.fieldD fields key read default := by
  rw [Source.fieldD, field_cons_of_ne h, Source.fieldD]

theorem fieldD_cons_self : source.fieldD ((key, v) :: fields) key read default =
    if fields.countP (·.1 == key) = 0 then read v else none := by
  rw [Source.fieldD, field_cons_self]
  split_ifs <;> rfl

theorem required_cons_of_ne (h : key' ≠ key) :
    source.required ((key', v) :: fields) key read = source.required fields key read := by
  rw [Source.required, field_cons_of_ne h, Source.required]

theorem required_cons_self : source.required ((key, v) :: fields) key read =
    if fields.countP (·.1 == key) = 0 then read v else none := by
  rw [Source.required, field_cons_self]
  split_ifs <;> rfl

end

end Json

open Json (source)

namespace Item

variable {nested : Json → Option (List Item)} {fields fields' : List (String × Json)}

/-- Of the fields only those that are known are looked at. -/
theorem ofFields_congr (h : ∀ key ∈ keys, source.field fields key = source.field fields' key) :
    ofFields source nested fields = ofFields source nested fields' := by
  simp only [keys, List.forall_mem_cons] at h
  obtain ⟨htype, hname, hoptional, harray, hlimit, hprecision, hitems, -⟩ := h
  simp only [ofFields, Source.required, Source.fieldD, htype, hname, hoptional, harray, hlimit,
    hprecision, hitems]

/-- The item is the same in every spelling of its kind. -/
theorem ofFields_respelled {kind kind' : String} (h : Kind.Spell kind kind') :
    ofFields source nested (("type", .text (some kind)) :: fields) =
      ofFields source nested (("type", .text (some kind')) :: fields) := by
  obtain ⟨k, hkind, hkind'⟩ := h.exists_ofText?
  have hitem : ∀ name optional repeated lengthLimit precision items,
      Entry.toItem ⟨kind, name, optional, repeated, lengthLimit, precision, items⟩ =
        Entry.toItem ⟨kind', name, optional, repeated, lengthLimit, precision, items⟩ := by
    intros
    simp only [Entry.toItem, hkind, hkind']
    cases k <;> rfl
  have htext : ∀ kind, source.text (.text (some kind)) = some kind := fun _ => rfl
  simp (disch := decide) only [ofFields, Json.required_cons_self, Json.required_cons_of_ne,
    Json.fieldD_cons_of_ne, htext]
  split_ifs
  · simp only [Option.bind_eq_bind, Option.bind_some, hitem]
  · rfl

/-- Lists of items that are read alike may stand for each other. -/
theorem ofFields_nested {v w : Json} (h : nested v = nested w) :
    ofFields source nested (("items", v) :: fields) =
      ofFields source nested (("items", w) :: fields) := by
  simp (disch := decide) only [ofFields, Json.required_cons_of_ne, Json.fieldD_cons_of_ne,
    Json.fieldD_cons_self, h]

/-- Items that are read alike may stand for each other in a list. -/
theorem readList_nested {x y : Json} (h : ∀ depth, read source depth x = read source depth y)
    (before after : List Json) (depth : Nat) :
    readList source depth (.list (before ++ x :: after)) =
      readList source depth (.list (before ++ y :: after)) := by
  cases depth with
  | zero => rfl
  | succ depth =>
    have hmap : (before ++ x :: after).mapM (read source depth) =
        (before ++ y :: after).mapM (read source depth) := by
      rw [List.mapM_append, List.mapM_append, List.mapM_cons, List.mapM_cons, h]
    exact hmap

/-- What is read off a record is what is read off its fields. -/
theorem read_record_congr (h : ∀ depth, ofFields source (readList source depth) fields =
    ofFields source (readList source depth) fields') (depth : Nat) :
    read source depth (Json.record fields) = read source depth (Json.record fields') := by
  cases depth with
  | zero => rfl
  | succ depth =>
    rw [read, read, Json.fields_record, Json.fields_record]
    exact h depth

/-- An item is the same in other words. -/
theorem read_reworded {x y : Json} (h : Json.Reworded keys x y) :
    ∀ depth, read source depth x = read source depth y := by
  generalize hkeys : keys = known at h
  induction h with
  | reordered h =>
    exact read_record_congr fun _ => ofFields_congr fun key _ => Json.field_perm h key
  | extended h v fields =>
    subst hkeys
    refine read_record_congr fun _ => ofFields_congr fun key hkey => ?_
    rw [Json.field_cons_of_ne (ne_of_mem_of_not_mem hkey h).symm]
  | respelled h => exact read_record_congr fun _ => ofFields_respelled h
  | within _ before after fields ih =>
    exact read_record_congr fun depth =>
      ofFields_nested (readList_nested (ih rfl) before after depth)

end Item

namespace Document

variable {fields fields' : List (String × Json)} {depth : Nat}

theorem read_record_congr
    (h : ∀ key ∈ keys, source.field fields key = source.field fields' key) :
    read source depth (Json.record fields) = read source depth (Json.record fields') := by
  simp only [keys, List.forall_mem_cons] at h
  obtain ⟨hid, hrevision, hname, hitems, -⟩ := h
  simp only [read, Json.fields_record, Option.bind_eq_bind, Option.bind_some, Source.required,
    Source.fieldD, hid, hrevision, hname, hitems]

theorem read_record_nested {v w : Json}
    (h : Item.readList source depth v = Item.readList source depth w) :
    read source depth (Json.record (("items", v) :: fields)) =
      read source depth (Json.record (("items", w) :: fields)) := by
  simp (disch := decide) only [read, Json.fields_record, Option.bind_eq_bind, Option.bind_some,
    Json.required_cons_of_ne, Json.fieldD_cons_of_ne, Json.fieldD_cons_self, h]

/-- A document type is the same in other words. -/
theorem read_reworded {x y : Json} (h : Json.Reworded keys x y) (depth : Nat) :
    read source depth x = read source depth y := by
  generalize hkeys : keys = known at h
  cases h with
  | reordered h => exact read_record_congr fun key _ => Json.field_perm h key
  | extended h v fields =>
    subst hkeys
    refine read_record_congr fun key hkey => ?_
    rw [Json.field_cons_of_ne (ne_of_mem_of_not_mem hkey h).symm]
  | respelled => simp [keys, Item.keys] at hkeys
  | within h before after fields =>
    exact read_record_nested (Item.readList_nested (Item.read_reworded h) before after depth)

/-- So it is after any number of changes. -/
theorem read_eqvGen {x y : Json} (h : Relation.EqvGen (Json.Reworded keys) x y) (depth : Nat) :
    read source depth x = read source depth y := by
  induction h with
  | rel _ _ h => exact read_reworded h depth
  | refl _ => rfl
  | symm _ _ _ ih => exact ih.symm
  | trans _ _ _ _ _ ih ih' => exact ih.trans ih'

/-- A text in which a document type and its items are written as objects, with no more levels than
are read, is accepted exactly if its tree writes a document type. Whatever a text is, what is read
from it is read from every text that says the same in other words. -/
theorem ofJson_grammar {s : String} {x : Json} (hparse : Json.parse? s = some x) :
    (x.AsObjects → x.levels ≤ 127 → ((∃ doc, ofJson s = .ok doc) ↔ x.WritesDocument)) ∧
    ∀ t y, Json.parse? t = some y → Relation.EqvGen (Json.Reworded keys) x y →
      ofJson t = ofJson s := by
  refine ⟨fun hx hlevels => exists_ofJson_iff hparse hx hlevels, fun t y ht h => ?_⟩
  rw [ofJson, ofJson, hparse, ht, Option.bind_some, Option.bind_some, read_eqvGen h]

/-- A section with an item is accepted. The fields may stand in another order, with one more that is
not known, and the kinds may be spelled in other ways. -/
theorem ofJson_grammar_section :
    let s := "\x7b\"name\":\"n\",\"items\":[\x7b\"type\":\"section\",\"name\":\"s\",\"items\":" ++
      "[\x7b\"type\":\"int\",\"name\":\"a\"\x7d]\x7d]\x7d"
    let t := "\x7b\"note\":null,\"items\":[\x7b\"items\":[\x7b\"type\":\"Integer\"," ++
      "\"name\":\"a\"\x7d],\"name\":\"s\",\"type\":\"SECTION\"\x7d],\"name\":\"n\"\x7d"
    (∃ doc, ofJson s = .ok doc) ∧ ofJson t = ofJson s := by
  intro s t
  have hs : s = Json.compact (.map [("name", .text "n"), ("items", .list [.map [
      ("type", .text "section"), ("name", .text "s"), ("items", .list [.map [
        ("type", .text "int"), ("name", .text "a")]])]])]) := by decide +kernel
  have ht : t = Json.compact (.map [("note", .null), ("items", .list [.map [("items", .list [.map [
      ("type", .text "Integer"), ("name", .text "a")]]), ("name", .text "s"),
        ("type", .text "SECTION")]]), ("name", .text "n")]) := by decide +kernel
  have hparse : Json.parse? s = some (.record [("name", .text (some "n")),
      ("items", .list [.record [("type", .text (some "section")), ("name", .text (some "s")),
        ("items", .list [.record [("type", .text (some "int")), ("name", .text (some "a"))]])]])]) := by
    rw [hs, Json.parse?_compact]
    rfl
  have hparse' : Json.parse? t = some (.record [("note", .null), ("items", .list [.record [
      ("items", .list [.record [("type", .text (some "Integer")), ("name", .text (some "a"))]]),
      ("name", .text (some "s")), ("type", .text (some "SECTION"))]]),
      ("name", .text (some "n"))]) := by
    rw [ht, Json.parse?_compact]
    rfl
  have hsection : Kind.Spell "section" "SECTION" := ⟨["section"], by decide +kernel⟩
  have hinteger : Kind.Spell "int" "Integer" := ⟨["integer", "int"], by decide +kernel⟩
  obtain ⟨hgrammar, hreworded⟩ := ofJson_grammar hparse
  refine ⟨(hgrammar ?_ ?_).mpr ?_, hreworded t _ hparse' ?_⟩
  · simp [Json.asObjects_record_iff]
  · decide +kernel
  · have hitem : Json.WritesItem (.record [("type", .text (some "int")),
        ("name", .text (some "a"))]) := Json.writesItem_record_iff.mpr ⟨{
      once := by decide
      present := by simp
      texts := by simp [Json.IsText]
      flags := by simp
      sizes := by simp }, by simp⟩
    have hitem' : Json.WritesItem (.record [("type", .text (some "section")),
        ("name", .text (some "s")), ("items", .list [.record [("type", .text (some "int")),
          ("name", .text (some "a"))]])]) := Json.writesItem_record_iff.mpr ⟨{
      once := by decide
      present := by simp
      texts := by simp [Json.IsText]
      flags := by simp
      sizes := by simp }, by simp [hitem]⟩
    exact Json.writesDocument_record_iff.mpr ⟨{
      once := by decide
      present := by simp
      texts := by simp [Json.IsText]
      revision := by simp }, by simp [hitem']⟩
  · refine .trans _ _ _ (.rel _ _ (.reordered (.swap _ _ _))) ?_
    refine .trans _ _ _ (.rel _ _ (.within (.respelled hsection _) [] [] _)) ?_
    refine .trans _ _ _ (.rel _ _ (.within (.reordered (List.reverse_perm _).symm) [] [] _)) ?_
    refine .trans _ _ _ (.rel _ _ (.within (.within (.respelled hinteger _) [] [] _) [] [] _)) ?_
    exact .rel _ _ (.extended (by decide) _ _)

end Document

end DocTables
