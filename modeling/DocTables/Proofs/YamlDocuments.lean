import DocTables.Document.Yaml
import DocTables.Proofs.Numerals
import DocTables.Proofs.Reading
import Mathlib.Tactic.SplitIfs

/-!
# Document types in YAML

The tree of a YAML text shows a piece of data if it has the lists and maps of the data and scalars
with its values (`Yaml.shows`). A text may be written in any style, and everything else plainly. A
piece of data reads back if the tree of the text that is written for it shows it
(`Yaml.ReadsBack`). The decoder follows no alias in such a tree, so no jump is lost.

A document type whose data reads back is read again with the items that are read back
(`Document.ofYaml_toYaml`), if it has no more levels than `Yaml.maxDepth`. A document type that was
read from any YAML text has no more (`Document.ofYaml_settled`).
-/

namespace DocTables

namespace Yaml

/-! ## Whole numbers -/

theorem unsigned?_toDigits (n : Nat) : unsigned? (Nat.toDigits 10 n) = some n := by
  by_cases hn : n = 0
  · subst hn
    rfl
  · have hhead := Digits.head?_toDigits_ne hn
    have hnumber := Digits.number?_toDigits n
    rw [unsigned?.eq_def]
    split
    case h_6 => exact hnumber
    all_goals simp_all

/-- Leaving out a plus sign leaves digits as they are. -/
theorem skipPlus_toDigits (n : Nat) : skipPlus (Nat.toDigits 10 n) = Nat.toDigits 10 n := by
  obtain ⟨c, cs, hcs, hc⟩ := Digits.toDigits_eq_cons n
  rw [hcs, skipPlus.eq_def]
  split
  case h_1 heq =>
    obtain ⟨rfl, -⟩ := List.cons.inj heq
    cases hc
  case h_2 => rfl

theorem int?_toString (i : Int) : int? (toString i) = some i := by
  rw [int?, Digits.toList_toString_int]
  split_ifs with hneg
  · simp only [unsigned?_toDigits, Option.bind_eq_bind, Option.bind_some, Option.pure_def,
      Option.map_some, Option.some.injEq]
    omega
  · obtain ⟨c, cs, hcs, hc⟩ := Digits.toDigits_eq_cons i.natAbs
    have hread : (unsigned? (skipPlus (Nat.toDigits 10 i.natAbs))).map Int.ofNat = some i := by
      rw [skipPlus_toDigits, unsigned?_toDigits, Option.map_some, Option.some.injEq]
      exact Int.natAbs_of_nonneg (by omega)
    rw [hcs] at hread ⊢
    split
    case h_1 heq =>
      obtain ⟨rfl, -⟩ := List.cons.inj heq
      cases hc
    case h_2 => exact hread

theorem nat?_toString (n : Nat) : nat? (toString (n : Int)) = some n := by
  rw [nat?, Digits.toList_toString_int, if_neg (by omega), Int.natAbs_natCast, skipPlus_toDigits,
    unsigned?_toDigits]

/-- No whole number is null. -/
theorem null?_toString (i : Int) : null? (.scalar none (toString i) .plain) = some false := by
  have hint := int?_toString i
  have hempty : int? "" = none := by decide
  have hnull : ∀ s ∈ ["null", "Null", "NULL", "~"], int? s = none := by decide
  rw [null?, Option.some.injEq, Bool.or_eq_false_iff]
  constructor
  · by_contra h
    simp only [Bool.not_eq_false, String.isEmpty_iff] at h
    simp [h, hempty] at hint
  · by_contra h
    simp only [isNull, Bool.not_eq_false, Bool.or_eq_true, decide_eq_true_eq] at h
    rw [hnull _ (by simpa [or_assoc] using h)] at hint
    cases hint

/-! ## Trees that show data -/

/-- The node is a scalar with this text that is written plainly. -/
def showsPlain (s : String) : Node → Bool
  | .scalar none text .plain => text = s
  | _ => false

/-- The node is a scalar with this text, in any style. -/
def showsText (s : String) : Node → Bool
  | .scalar none text _ => text = s
  | _ => false

mutual

/-- The node shows a piece of data. -/
def shows : Data → Node → Bool
  | .null, x => showsPlain "null" x
  | .bool b, x => showsPlain (toString b) x
  | .int i, x => showsPlain (toString i) x
  | .text s, x => showsText s x
  | .list items, .sequence nodes => showsItems items nodes
  | .map fields, .mapping entries => showsFields fields entries
  | .list _, _ | .map _, _ => false

/-- The nodes show the items of a list. -/
def showsItems : List Data → List Node → Bool
  | [], [] => true
  | item :: items, node :: nodes => shows item node && showsItems items nodes
  | _, _ => false

/-- The entries show the fields of a map. -/
def showsFields : List (String × Data) → List (Node × Node) → Bool
  | [], [] => true
  | (name, value) :: fields, (key, node) :: entries =>
    showsText name key && shows value node && showsFields fields entries
  | _, _ => false

end

/-- The tree of the text that is written for a piece of data shows it. -/
def ReadsBack (d : Data) : Prop := ∃ t, parse? (render d) = some t ∧ shows d t.root

instance (d : Data) : Decidable (ReadsBack d) :=
  decidable_of_iff ((parse? (render d)).any fun t => shows d t.root) (by
    simp [ReadsBack, Option.any_eq_true])

/-! ## The answers of a tree that shows data -/

section

variable {t : Tree} {s : String} {x : Node}

theorem eq_of_showsPlain (h : showsPlain s x) : x = .scalar none s .plain := by
  unfold showsPlain at h
  split at h
  · rw [of_decide_eq_true h]
  · cases h

theorem text_of_showsText (h : showsText s x) : text t x = pure s := by
  unfold showsText at h
  split at h
  · obtain rfl := of_decide_eq_true h
    rfl
  · cases h

theorem forall₂_of_showsItems : ∀ {items : List Data} {nodes : List Node},
    showsItems items nodes → List.Forall₂ (fun d x => shows d x = true) items nodes
  | [], [], _ => .nil
  | item :: items, node :: nodes, h => by
    obtain ⟨hitem, hitems⟩ := Bool.and_eq_true_iff.mp h
    exact .cons hitem (forall₂_of_showsItems hitems)
  | [], _ :: _, h | _ :: _, [], h => by cases h

theorem exists_of_showsFields : ∀ {fields : List (String × Data)} {entries : List (Node × Node)},
    showsFields fields entries → ∃ xs : List (String × Node),
      ShowsFields (fun d x => shows d x = true) fields xs ∧
      (entries.mapM fun (key, value) => return (← text t key, value)) = (pure xs : Answer _)
  | [], [], _ => ⟨[], .nil, rfl⟩
  | (name, value) :: fields, (key, node) :: entries, h => by
    simp only [showsFields, Bool.and_eq_true] at h
    obtain ⟨⟨hkey, hvalue⟩, hfields⟩ := h
    obtain ⟨xs, hxs, hentries⟩ := exists_of_showsFields hfields
    refine ⟨(name, node) :: xs, hxs.cons hvalue, ?_⟩
    rw [List.mapM_cons, hentries]
    simp only [text_of_showsText hkey, pure_bind]
  | [], _ :: _, h | _ :: _, [], h => by cases h

end

/-- A tree answers for the data it shows as the data says. -/
theorem source_shows (t : Tree) : (source t).Shows fun d x => shows d x = true where
  text h := text_of_showsText h
  bool := by
    intro b x h
    obtain rfl := eq_of_showsPlain h
    cases b <;> rfl
  int32 := by
    intro i x h
    obtain rfl := eq_of_showsPlain h
    have hint : (typed "int" (.scalar none (toString i.toInt) .plain)).bind int? = some i.toInt :=
      int?_toString i.toInt
    change (do answer (Digits.int32? (← answer (Option.bind _ int?)))) = _
    rw [hint]
    exact congrArg answer (Digits.int32?_toInt i)
  natBelow := by
    intro n bound x h hn
    obtain rfl := eq_of_showsPlain h
    have hnat : (typed "int" (.scalar none (toString (n : Int)) .plain)).bind nat? = some n :=
      nat?_toString n
    change (do
      let n ← answer (Option.bind _ nat?)
      if n < bound then return n else failure) = _
    rw [hnat]
    exact if_pos hn
  nullable := by
    intro i x h
    obtain rfl := eq_of_showsPlain h
    change (do
      let null ← answer (null? (.scalar none (toString i) .plain))
      return if null then none else some (Node.scalar none (toString i) .plain) : Answer _) = _
    rw [null?_toString]
    rfl
  list := by
    intro items x h
    cases x with
    | sequence nodes => exact ⟨nodes, forall₂_of_showsItems h, rfl⟩
    | _ => cases h
  fields := by
    intro fields x keys h
    cases x with
    | mapping entries =>
      obtain ⟨xs, hxs, hentries⟩ := exists_of_showsFields (t := t) h
      exact ⟨xs, hxs, congrArg (some <$> ·) hentries⟩
    | _ => cases h
  reject_bind := fun _ => rfl

/-- An answer of a tree is what it is with some number of jumps. -/
theorem source_yields (t : Tree) :
    (source t).Yields fun x b => ∃ jumps left, x jumps = some (b, left) where
  eq_of_pure := by
    rintro β b b' ⟨jumps, left, h⟩
    exact (Prod.mk.inj (Option.some.inj h)).1
  of_bind := by
    rintro β γ x f c ⟨jumps, left, h⟩
    obtain ⟨⟨b, between⟩, hb, hc⟩ := Option.bind_eq_some_iff.mp h
    exact ⟨b, ⟨jumps, between, hb⟩, between, left, hc⟩
  not_reject := by
    rintro β b ⟨jumps, left, h⟩
    cases h

end Yaml

/-! ## Writing and reading -/

namespace Document

theorem ofYaml_eq_ok_iff {s : String} {doc : Document} : ofYaml s = .ok doc ↔
    ∃ t, Yaml.parse? s = some t ∧ ∃ left,
      read (Yaml.source t) (Yaml.maxDepth - 1) t.root (100 * t.size) = some (doc, left) := by
  unfold ofYaml Yaml.read?
  cases hparse : Yaml.parse? s with
  | none => simp
  | some t =>
    rw [Option.bind_eq_bind, Option.bind_some, StateT.run'_eq]
    cases hread : read (Yaml.source t) (Yaml.maxDepth - 1) t.root (100 * t.size) <;>
      simp [StateT.run, hread, Prod.ext_iff]

/-- What is read from a text whose tree shows the data of a document type. -/
theorem ofYaml_of_shows {s : String} {t : Yaml.Tree} {shows : Data → Yaml.Node → Prop}
    {doc : Document} (hparse : Yaml.parse? s = some t) (hs : (Yaml.source t).Shows shows)
    (hroot : shows doc.toData t.root) : ofYaml s = if doc.toData.depth ≤ Yaml.maxDepth then
      .ok { doc with items := Item.readBackList doc.items }
    else .error .yaml := by
  have hread : read (Yaml.source t) (Yaml.maxDepth - 1) t.root =
      if doc.toData.depth ≤ Yaml.maxDepth then
        pure { doc with items := Item.readBackList doc.items } else failure :=
    read_eq hs doc hroot
  rw [ofYaml, Yaml.read?, hparse, Option.bind_eq_bind, Option.bind_some, hread]
  split_ifs <;> rfl

/-- What becomes of a document type that is written in YAML and read again. -/
theorem ofYaml_toYaml {doc : Document} (h : Yaml.ReadsBack doc.toData) : ofYaml doc.toYaml =
    if doc.toData.depth ≤ Yaml.maxDepth then
      .ok { doc with items := Item.readBackList doc.items }
    else .error .yaml := by
  obtain ⟨t, hparse, hshows⟩ := h
  exact ofYaml_of_shows hparse (Yaml.source_shows t) hshows

/-- A document type that was read from a YAML text has no item of an unknown kind with a known name
for its kind, and no more levels than are read. -/
theorem ofYaml_settled {s : String} {doc : Document} (h : ofYaml s = .ok doc) :
    Item.Unambiguous doc.items ∧ doc.toData.depth ≤ Yaml.maxDepth := by
  obtain ⟨t, -, left, hread⟩ := ofYaml_eq_ok_iff.mp h
  exact read_settled (Yaml.source_yields t) ⟨_, left, hread⟩

end Document

end DocTables
