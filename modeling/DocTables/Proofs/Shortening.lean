import DocTables.Proofs.NameLengths
import DocTables.Proofs.ShortNames

/-!
# What becomes of a name that is shortened

A name that fits a limit stays as it is. Of a longer one the first characters are kept, and an
underscore and sixteen digits of its SHA-256 digest fill it up to the limit (`Naming.cut_shorten`).
The limit is at least eighteen, so that there is always room for the digits.

A naming may be shortened many times, to limits in any order. Its names then keep to all of them,
and so to the least (`Naming.bounded_foldl_shortened`). A limit above the last one changes nothing
more (`Naming.shortened_shortened`). The names of a document type's tables and columns, and of the
tables that foreign keys lead to, come from the naming or are shorter than eighteen characters, so
that they keep to the least limit too (`names_foldl_shortened`).
-/

namespace DocTables

/-! ## The digits of a digest -/

namespace Digits

theorem length_hex (a : Char) (width n : Nat) : (hex a width n).length = width := by
  induction width generalizing n with
  | zero => rfl
  | succ width ih => rw [hex, List.length_append, ih, List.length_singleton]

/-- Digits in base sixteen are from 0 to 9 or from a to f. -/
theorem isDigit_or_of_mem_hex {c : Char} {width n : Nat} (h : c ∈ hex 'a' width n) :
    c.isDigit ∨ 'a' ≤ c ∧ c ≤ 'f' := by
  have hdigit : ∀ k < 16, (digit 'a' k).isDigit ∨ 'a' ≤ digit 'a' k ∧ digit 'a' k ≤ 'f' := by
    decide
  induction width generalizing n with
  | zero => cases h
  | succ width ih =>
    rw [hex, List.mem_append, List.mem_singleton] at h
    rcases h with h | rfl
    · exact ih h
    · exact hdigit _ (Nat.mod_lt n (by omega))

end Digits

namespace Sha256

/-- A digest has eight words of four bytes. -/
theorem length_digest (message : Bytes) : (digest message).length = 32 :=
  rfl

theorem length_hexDigest (s : String) : (hexDigest s).length = 64 := by
  have htwo : ∀ bytes : Bytes,
      (bytes.flatMap fun b => Digits.hex 'a' 2 b.toNat).length = 2 * bytes.length := by
    intro bytes
    induction bytes with
    | nil => rfl
    | cons b bytes ih =>
      rw [List.flatMap_cons, List.length_append, Digits.length_hex, ih, List.length_cons]
      omega
  rw [hexDigest, htwo, length_digest]

theorem isDigit_or_of_mem_hexDigest {c : Char} {s : String} (h : c ∈ hexDigest s) :
    c.isDigit ∨ 'a' ≤ c ∧ c ≤ 'f' := by
  obtain ⟨b, -, hc⟩ := List.mem_flatMap.mp h
  exact Digits.isDigit_or_of_mem_hex hc

end Sha256

namespace Naming

/-! ## One name -/

/-- What becomes of a name under a limit. -/
inductive Cut (limit : Nat) (name : String) : String → Prop
  /-- It stays as it is if it is not too long. -/
  | fits : name.length ≤ limit → Cut limit name name
  /-- The characters that are kept leave room for an underscore and sixteen digits. -/
  | shortened {kept : Nat} {digits : List Char} : limit < name.length → kept + 17 = limit →
    digits.length = 16 → digits <+: Sha256.hexDigest name →
    (∀ c ∈ digits, c.isDigit ∨ 'a' ≤ c ∧ c ≤ 'f') →
    (name.toList.take kept ++ '_' :: digits).length = limit →
    Cut limit name (String.ofList (name.toList.take kept ++ '_' :: digits))

theorem Cut.length_le {limit : Nat} {name short : String} (h : Cut limit name short) :
    short.length ≤ limit ∧ short.length ≤ name.length := by
  cases h with
  | fits hle => exact ⟨hle, Nat.le_refl _⟩
  | shortened hlt _ _ _ _ hlength =>
    rw [String.length_ofList, hlength]
    exact ⟨Nat.le_refl _, Nat.le_of_lt hlt⟩

theorem cut_shorten (limit : Nat) (name : String) :
    Cut (effectiveLimit limit) name (shorten limit name) := by
  by_cases hfits : name.length ≤ effectiveLimit limit
  · rw [shorten_of_le hfits]
    exact .fits hfits
  · have hlt : effectiveLimit limit < name.toList.length := Nat.lt_of_not_le hfits
    have hroom : 18 ≤ effectiveLimit limit := Nat.le_max_right _ _
    have hkept : effectiveLimit limit - suffixLength + 17 = effectiveLimit limit :=
      Nat.sub_add_cancel (Nat.le_of_succ_le hroom)
    have hdigits : ((Sha256.hexDigest name).take digestLength).length = 16 := by
      rw [List.length_take, Sha256.length_hexDigest]
      rfl
    rw [shorten, if_neg hfits]
    refine .shortened hlt hkept hdigits (List.take_prefix _ _) (fun c hc => ?_) ?_
    · exact Sha256.isDigit_or_of_mem_hexDigest (List.mem_of_mem_take hc)
    · rw [List.length_append, List.length_cons, hdigits, List.length_take]
      omega

/-! ## Many limits -/

variable {naming : Naming} {limits : List Nat} {limit limit' : Nat}

/-- One more limit makes no name longer. -/
theorem Bounded.shortened (h : naming.Bounded limit) (limit' : Nat) :
    (naming.shortened limit').Bounded limit where
  rootTable_le id revision :=
    Nat.le_trans (cut_shorten limit' _).length_le.2 (h.rootTable_le id revision)
  childTable_le owner path name :=
    Nat.le_trans (cut_shorten limit' _).length_le.2 (h.childTable_le owner path name)
  column_le name := Nat.le_trans (cut_shorten limit' _).length_le.2 (h.column_le name)

theorem Bounded.foldl_shortened (h : naming.Bounded limit) (limits : List Nat) :
    (limits.foldl Naming.shortened naming).Bounded limit := by
  induction limits generalizing naming with
  | nil => exact h
  | cons limit' limits ih => exact ih (h.shortened limit')

/-- Names that are shortened to many limits keep to each of them. -/
theorem bounded_foldl_shortened (inner : Naming) (h : limit ∈ limits) :
    (limits.foldl Naming.shortened inner).Bounded (effectiveLimit limit) := by
  obtain ⟨before, after, rfl⟩ := List.append_of_mem h
  rw [List.foldl_append, List.foldl_cons]
  exact (bounded_shortened _ limit).foldl_shortened after

/-- A limit that is not below the one before it is of no effect. -/
theorem shortened_shortened (inner : Naming) (h : limit ≤ limit') :
    (inner.shortened limit).shortened limit' = inner.shortened limit := by
  have hshorten : ∀ name, shorten limit' (shorten limit name) = shorten limit name := by
    intro name
    have hle : effectiveLimit limit ≤ effectiveLimit limit' := by
      unfold effectiveLimit
      omega
    exact shorten_of_le (Nat.le_trans (length_shorten_le limit name) hle)
  simp only [Naming.shortened, hshorten]

theorem pathSegment_foldl_shortened (inner : Naming) (limits : List Nat) :
    (limits.foldl Naming.shortened inner).pathSegment = inner.pathSegment := by
  induction limits generalizing inner with
  | nil => rfl
  | cons limit limits ih => exact ih (inner.shortened limit)

end Naming

/-! ## The tables of a document type -/

variable {naming : Naming} {limit : Nat} {doc : Document} {d : Decomposition}

theorem length_columnName_le (h : naming.Bounded limit) (hlimit : 18 ≤ limit)
    (hd : doc.decompose naming = .ok d) :
    ∀ t ∈ d.tables, ∀ c ∈ t.columns, c.name.length ≤ limit := by
  have hid : "id".length ≤ limit := Nat.le_trans (by decide) hlimit
  have hparent : "parent_id".length ≤ limit := Nat.le_trans (by decide) hlimit
  refine List.forall_mem_cons.mpr ⟨?_, fun t ht => ?_⟩
  · rw [(laidOut_of_decompose hd).root]
    exact List.forall_mem_cons.mpr ⟨hid, length_le_of_mem_column? h doc.items⟩
  · obtain ⟨x, owner, path, -, -, rfl⟩ := exists_item_of_mem_children hd ht
    refine List.forall_mem_cons.mpr ⟨hid, List.forall_mem_cons.mpr ⟨hparent, ?_⟩⟩
    exact length_le_of_mem_ownColumns h hlimit x

theorem length_foreignKey_le (h : naming.Bounded limit) (hlimit : 18 ≤ limit)
    (hd : doc.decompose naming = .ok d) : ∀ t ∈ d.tables, ∀ key ∈ t.foreignKeys,
      key.table.length ≤ limit ∧ key.target.length ≤ limit := by
  have hid : "id".length ≤ limit := Nat.le_trans (by decide) hlimit
  refine List.forall_mem_cons.mpr ⟨?_, fun t ht => ?_⟩
  · rw [(laidOut_of_decompose hd).root]
    simp
  · obtain ⟨x, owner, path, -, howner, rfl⟩ := exists_item_of_mem_children hd ht
    exact List.forall_mem_singleton.mpr ⟨length_name_le h hd owner howner, hid⟩

/-- A naming that is shortened to some limits, none of which counts for less than eighteen, gives no
name longer than the least of them. Each limit leaves a name that fits it as it is, and makes of any
other one that fills it. One that is not below the limit before it changes nothing, and paths are
left alone. So the names of tables, of columns and of what foreign keys lead to are not longer than
the least limit, in the tables of every document type. -/
theorem names_foldl_shortened (inner : Naming) (limits : List Nat) (least : Nat)
    (hleast : (limits.map (max · 18)).min? = some least) :
    (limits.foldl Naming.shortened inner).Bounded least ∧
    (∀ limit,
      (∀ id revision, Naming.Cut (max limit 18) (inner.rootTable id revision)
        ((inner.shortened limit).rootTable id revision)) ∧
      (∀ owner path name, Naming.Cut (max limit 18) (inner.childTable owner path name)
        ((inner.shortened limit).childTable owner path name)) ∧
      ∀ name, Naming.Cut (max limit 18) (inner.column name)
        ((inner.shortened limit).column name)) ∧
    (∀ limit limit', limit ≤ limit' →
      (inner.shortened limit).shortened limit' = inner.shortened limit) ∧
    (∀ name, (limits.foldl Naming.shortened inner).pathSegment name = inner.pathSegment name) ∧
    ∀ (doc : Document) (d : Decomposition),
      doc.decompose (limits.foldl Naming.shortened inner) = .ok d → ∀ t ∈ d.tables,
        t.name.length ≤ least ∧ (∀ c ∈ t.columns, c.name.length ≤ least) ∧
        ∀ key ∈ t.foreignKeys, key.table.length ≤ least ∧ key.target.length ≤ least := by
  obtain ⟨limit, hmem, rfl⟩ := List.mem_map.mp (List.min?_mem hleast)
  have hbounded := Naming.bounded_foldl_shortened inner hmem
  have hroom : 18 ≤ max limit 18 := Nat.le_max_right _ _
  refine ⟨hbounded, fun limit => ?_, fun _ _ => Naming.shortened_shortened inner,
    congrFun (Naming.pathSegment_foldl_shortened inner limits), fun doc d hd t ht => ?_⟩
  · exact ⟨fun _ _ => Naming.cut_shorten limit _, fun _ _ _ => Naming.cut_shorten limit _,
      fun _ => Naming.cut_shorten limit _⟩
  · exact ⟨length_name_le hbounded hd t ht, length_columnName_le hbounded hroom hd t ht,
      length_foreignKey_le hbounded hroom hd t ht⟩

/-- A name that is cut to forty characters, and a document type with other letters than those of
ASCII in its names, which are cut to forty characters, then to eighteen, and stay so. -/
theorem names_foldl_shortened_three_limits :
    let owner := "data_733bee1b-f79a-4cb7-b675-842317b994b5_r1"
    let limits := [40, 0, 64]
    let naming := limits.foldl Naming.shortened (.plain .raw)
    let doc : Document :=
      .mk "ü" 1 "d" [.ofItems "größe der lieferung" [.asRepeated (.integer "länge in metern")],
        .string "straße und hausnummer"]
    (limits.map (max · 18)).min? = some 18 ∧
    Naming.Cut 40 (owner ++ "_attachment") "data_733bee1b-f79a-4cb7_faefa37eb9e53e8b" ∧
    ∃ d, doc.decompose naming = .ok d ∧ d.tables.length = 3 ∧
      ∀ t ∈ d.tables, t.name.length ≤ 18 ∧ (∀ c ∈ t.columns, c.name.length ≤ 18) ∧
      ∀ key ∈ t.foreignKeys, key.table.length ≤ 18 ∧ key.target.length ≤ 18 := by
  intro owner limits naming doc
  have hleast : (limits.map (max · 18)).min? = some 18 := by decide
  obtain ⟨-, hcut, -, -, htables⟩ := names_foldl_shortened (.plain .raw) limits 18 hleast
  have hname : ((Naming.plain .raw).shortened 40).childTable owner "" "attachment" =
      "data_733bee1b-f79a-4cb7_faefa37eb9e53e8b" := by
    decide +kernel
  have hfull : (Naming.plain .raw).childTable owner "" "attachment" = owner ++ "_attachment" := by
    decide +kernel
  have hknown : Item.Known doc.items := by
    simp [doc, Item.ofItems, Item.integer, Item.string, Item.asRepeated, Item.mapFlags]
  obtain ⟨d, hd⟩ := exists_decompose naming hknown
  have hlength : (doc.decompose naming).toOption.map (·.tables.length) = some 3 := by
    decide +kernel
  rw [hd] at hlength
  refine ⟨hleast, ?_, d, hd, Option.some.inj hlength, htables doc d hd⟩
  rw [← hname, ← hfull]
  exact (hcut 40).2.1 owner "" "attachment"

end DocTables
