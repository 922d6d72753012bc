import DocTables.Proofs.Entries
import Mathlib.Data.List.Forall2

/-!
# Reading what was written, in any notation

`Source.Shows` says that a source answers for the trees that show a piece of data as the data says.
From such a source a document type is read where it was written if there are levels enough, and
nothing is read if there are not (`Document.read_eq`).

`Source.Yields` says what the answers of a source may be. Of such answers whatever tree is read, the
document type has no item of an unknown kind with the name of a known one, and can be written with
no more levels than it was read with (`Document.read_settled`). So it is read back where it is
written.
-/

namespace DocTables

/-! ## Answers for written data -/

/-- The fields, in whatever order, have the names of the fields of a map and show their values. -/
def ShowsFields {α : Type} (shows : Data → α → Prop) (fields : List (String × Data))
    (xs : List (String × α)) : Prop :=
  ∃ ys, List.Forall₂ (fun field x => field.1 = x.1 ∧ shows field.2 x.2) fields ys ∧ ys.Perm xs

namespace ShowsFields

variable {α : Type} {shows : Data → α → Prop} {fields : List (String × Data)}
  {xs : List (String × α)}

theorem of_forall₂
    (h : List.Forall₂ (fun field x => field.1 = x.1 ∧ shows field.2 x.2) fields xs) :
    ShowsFields shows fields xs :=
  ⟨xs, h, .refl xs⟩

theorem nil : ShowsFields shows [] [] := of_forall₂ .nil

theorem cons {name : String} {d : Data} {x : α} (hx : shows d x) (h : ShowsFields shows fields xs) :
    ShowsFields shows ((name, d) :: fields) ((name, x) :: xs) := by
  obtain ⟨ys, hys, hperm⟩ := h
  exact ⟨(name, x) :: ys, .cons ⟨rfl, hx⟩ hys, hperm.cons (name, x)⟩

/-- The fields with a name show the data with that name. -/
theorem filter (h : ShowsFields shows fields xs) (name : String) :
    ShowsFields shows (fields.filter (·.1 == name)) (xs.filter (·.1 == name)) := by
  obtain ⟨ys, hys, hperm⟩ := h
  refine ⟨ys.filter (·.1 == name), List.rel_filter (fun _ _ hx => ?_) hys, hperm.filter _⟩
  simp [hx.1]

theorem eq_nil (h : ShowsFields shows [] xs) : xs = [] := by
  obtain ⟨ys, hys, hperm⟩ := h
  rw [List.forall₂_nil_left_iff.mp hys] at hperm
  exact hperm.nil_eq.symm

theorem eq_singleton {name : String} {d : Data} (h : ShowsFields shows [(name, d)] xs) :
    ∃ x, shows d x ∧ xs = [(name, x)] := by
  obtain ⟨ys, hys, hperm⟩ := h
  obtain ⟨⟨name', x⟩, rest, ⟨rfl, hx⟩, hrest, rfl⟩ := List.forall₂_cons_left_iff.mp hys
  rw [List.forall₂_nil_left_iff.mp hrest] at hperm
  exact ⟨x, hx, (List.singleton_perm.mp hperm).symm⟩

end ShowsFields

/-- The source answers for the trees that show a piece of data as the data says. -/
structure Source.Shows {m : Type → Type} [Monad m] {α : Type} (src : Source m α)
    (shows : Data → α → Prop) : Prop where
  text {s : String} {x : α} : shows (.text s) x → src.text x = pure s
  bool {b : Bool} {x : α} : shows (.bool b) x → src.bool x = pure b
  int32 {i : Int32} {x : α} : shows (.int i.toInt) x → src.int32 x = pure i
  natBelow {n bound : Nat} {x : α} :
    shows (.int n) x → n < bound → src.natBelow bound x = pure n
  nullable {i : Int} {x : α} : shows (.int i) x → src.nullable x = pure (some x)
  list {items : List Data} {x : α} : shows (.list items) x →
    ∃ xs, List.Forall₂ shows items xs ∧ src.list x = pure (some xs)
  fields {fields : List (String × Data)} {x : α} (keys : List String) : shows (.map fields) x →
    ∃ xs, ShowsFields shows fields xs ∧ src.fields keys x = pure (some xs)
  reject_bind {β γ : Type} (f : β → m γ) : (src.reject >>= f) = src.reject

namespace Source.Shows

variable {m : Type → Type} [Monad m] {α : Type} {src : Source m α}
  {shows : Data → α → Prop} {fields : List (String × Data)} {xs : List (String × α)}

theorem field_eq_none {name : String} (h : ShowsFields shows fields xs)
    (hname : fields.filter (·.1 == name) = []) : src.field xs name = pure none := by
  have hfilter := h.filter name
  rw [hname] at hfilter
  rw [field, hfilter.eq_nil]

theorem field_eq_some (src : Source m α) {name : String} {d : Data} (h : ShowsFields shows fields xs)
    (hname : fields.filter (·.1 == name) = [(name, d)]) :
    ∃ x, shows d x ∧ src.field xs name = pure (some x) := by
  have hfilter := h.filter name
  rw [hname] at hfilter
  obtain ⟨x, hx, hxs⟩ := hfilter.eq_singleton
  exact ⟨x, hx, by rw [field, hxs]⟩

variable [LawfulMonad m] {β : Type} {read : α → m β}

theorem required_eq {name : String} {d : Data} {res : m β}
    (h : ShowsFields shows fields xs)
    (hname : fields.filter (·.1 == name) = [(name, d)]) (hread : ∀ x, shows d x → read x = res) :
    src.required xs name read = res := by
  obtain ⟨x, hx, hfield⟩ := field_eq_some src h hname
  rw [required, hfield, pure_bind]
  exact hread x hx

theorem fieldD_eq {name : String} {d : Data} {res : m β} {default : β}
    (h : ShowsFields shows fields xs)
    (hname : fields.filter (·.1 == name) = [(name, d)]) (hread : ∀ x, shows d x → read x = res) :
    src.fieldD xs name read default = res := by
  obtain ⟨x, hx, hfield⟩ := field_eq_some src h hname
  rw [fieldD, hfield, pure_bind]
  exact hread x hx

theorem fieldD_eq_default {name : String} {default : β}
    (h : ShowsFields shows fields xs)
    (hname : fields.filter (·.1 == name) = []) : src.fieldD xs name read default = pure default := by
  rw [fieldD, field_eq_none h hname, pure_bind]

theorem fieldD_flag (hs : src.Shows shows) {name : String} {b : Bool}
    (h : ShowsFields shows fields xs)
    (hname : fields.filter (·.1 == name) = Item.flagField name b) :
    src.fieldD xs name src.bool false = pure b := by
  cases b with
  | false => exact fieldD_eq_default h hname
  | true => exact fieldD_eq h hname fun _ => hs.bool

theorem fieldD_size (hs : src.Shows shows) {name : String} {n : Option UInt32}
    (h : ShowsFields shows fields xs)
    (hname : fields.filter (·.1 == name) = Item.sizeField name n) :
    src.fieldD xs name (src.optional src.uint32) none = pure n := by
  cases n with
  | none => exact fieldD_eq_default h hname
  | some n =>
    refine fieldD_eq h hname fun x hx => ?_
    rw [optional, hs.nullable hx, pure_bind]
    simp only [uint32, hs.natBelow hx n.toNat_lt_size, map_pure, UInt32.ofNat_toNat]

end Source.Shows

/-! ## Reading what was written -/

namespace Item

open Source.Shows

variable {m : Type → Type} [Monad m] [LawfulMonad m] {α : Type} {src : Source m α}
  {shows : Data → α → Prop}

/-- The entry that stands in fields is read off them, with the items that `nested` reads. -/
theorem ofFields_eq (hs : src.Shows shows) {e : Entry} {xs : List (String × α)}
    (h : ShowsFields shows e.fields xs) {nested : α → m (List Item)} {items : m (List Item)}
    (hempty : e.items = [] → items = pure [])
    (hnested : e.items ≠ [] → ∀ x, shows (.list (listData e.items)) x → nested x = items) :
    ofFields src nested xs = (fun items => Entry.toItem { e with items }) <$> items := by
  have hitems : src.fieldD xs "items" nested [] = items := by
    cases hcases : e.items with
    | nil =>
      rw [hempty hcases]
      exact fieldD_eq_default h (by simp [Entry.filter_fields, itemsField, hcases])
    | cons x items =>
      exact fieldD_eq h (by simp [Entry.filter_fields, itemsField, hcases]) (hnested (by simp [hcases]))
  rw [ofFields, required_eq h (d := .text e.kind) (by simp [Entry.filter_fields]) fun _ => hs.text,
    pure_bind, required_eq h (d := .text e.name) (by simp [Entry.filter_fields]) fun _ => hs.text,
    pure_bind, hs.fieldD_flag h (b := e.optional) (by simp [Entry.filter_fields]),
    pure_bind, hs.fieldD_flag h (b := e.repeated) (by simp [Entry.filter_fields]),
    pure_bind, hs.fieldD_size h (n := e.lengthLimit) (by simp [Entry.filter_fields]),
    pure_bind, hs.fieldD_size h (n := e.precision) (by simp [Entry.filter_fields]),
    pure_bind, hitems, map_eq_pure_bind]

/-- The items are read one by one where they were written if there are levels enough. -/
def ReadBack (src : Source m α) (shows : Data → α → Prop) (items : List Item) : Prop :=
  ∀ (depth : Nat) (xs : List α), List.Forall₂ shows (listData items) xs →
    xs.mapM (read src depth) = if Data.depthOfItems (listData items) ≤ depth then
      pure (readBackList items) else src.reject

omit [LawfulMonad m] in
theorem readBack_nil : ReadBack src shows [] := by
  intro depth xs h
  rw [List.forall₂_nil_left_iff.mp h, List.mapM_nil]
  exact (if_pos (Nat.zero_le depth)).symm

theorem readList_eq (hs : src.Shows shows) {items : List Item} (h : ReadBack src shows items)
    {depth : Nat} {a : α} (ha : shows (.list (listData items)) a) : readList src depth a =
      if Data.depthOfItems (listData items) < depth then pure (readBackList items)
      else src.reject := by
  obtain ⟨xs, hxs, hlist⟩ := hs.list ha
  cases depth with
  | zero => rw [readList, hlist, pure_bind, if_neg (Nat.not_lt_zero _)]
  | succ depth =>
    rw [readList, hlist, pure_bind]
    simp only [h depth xs hxs, Nat.lt_succ_iff]

theorem read_eq_of_items (hs : src.Shows shows) {x : Item}
    (h : ReadBack src shows x.entry.items) {depth : Nat} {a : α} (ha : shows x.toData a) :
    read src depth a = if x.toData.depth ≤ depth then pure x.readBack else src.reject := by
  have hread := toItem_entry_readBackList x
  rw [toData_eq_fields] at ha
  obtain ⟨xs, hxs, hfields⟩ := hs.fields keys ha
  rw [depth_toData]
  cases depth with
  | zero =>
    rw [read, if_neg]
    split <;> omega
  | succ depth =>
    rw [read, hfields, pure_bind]
    cases hitems : x.entry.items with
    | nil =>
      rw [hitems] at hread
      refine (ofFields_eq hs hxs (fun _ => rfl) fun hne => (hne hitems).elim).trans ?_
      simpa [readBackList] using congrArg pure hread
    | cons y ys =>
      have hdepth : Data.depthOfItems (listData (y :: ys)) + 2 ≤ depth + 1 ↔
        Data.depthOfItems (listData (y :: ys)) < depth := by omega
      refine (ofFields_eq hs hxs (by simp [hitems]) fun _ _ ha => readList_eq hs h ha).trans ?_
      rw [hitems] at hread ⊢
      simp only [List.isEmpty_cons, Bool.false_eq_true, if_false, hdepth]
      split_ifs
      · rw [map_pure, hread]
      · rw [map_eq_pure_bind, hs.reject_bind]

mutual

/-- An item is read where it was written if there are levels enough. -/
theorem read_eq (hs : src.Shows shows) : ∀ (x : Item) {depth : Nat} {a : α}, shows x.toData a →
    read src depth a = if x.toData.depth ≤ depth then pure x.readBack else src.reject
  | .scalar .., _, _, ha => read_eq_of_items hs readBack_nil ha
  | .file .., _, _, ha => read_eq_of_items hs readBack_nil ha
  | .group name flags items, _, _, ha =>
    read_eq_of_items (x := .group name flags items) hs (readBack_of_shows hs items) ha
  | .foreign .., _, _, ha => read_eq_of_items hs readBack_nil ha

theorem readBack_of_shows (hs : src.Shows shows) : ∀ items : List Item, ReadBack src shows items
  | [] => readBack_nil
  | x :: items => by
    intro depth xs h
    rw [listData] at h
    obtain ⟨a, xs, ha, hxs, rfl⟩ := List.forall₂_cons_left_iff.mp h
    rw [List.mapM_cons, read_eq hs x ha, readBack_of_shows hs items depth xs hxs]
    simp only [listData, Data.depthOfItems, Nat.max_le]
    by_cases hx : x.toData.depth ≤ depth
    · by_cases hitems : Data.depthOfItems (listData items) ≤ depth
      · simp [hx, hitems, readBackList]
      · simp [hx, hitems, hs.reject_bind]
    · simp [hx, hs.reject_bind]

end

end Item

namespace Document

open Source.Shows

variable {m : Type → Type} [Monad m] [LawfulMonad m] {α : Type} {src : Source m α}
  {shows : Data → α → Prop}

theorem depth_toData (doc : Document) :
    doc.toData.depth = Data.depthOfItems (Item.listData doc.items) + 2 := by
  simp [toData, Data.depth, Data.depthOfFields]

/-- A document type is read where it was written if there are levels enough. -/
theorem read_eq (hs : src.Shows shows) (doc : Document) {depth : Nat} {a : α}
    (ha : shows doc.toData a) : read src depth a = if doc.toData.depth ≤ depth + 1 then
      pure { doc with items := Item.readBackList doc.items } else src.reject := by
  obtain ⟨xs, hxs, hfields⟩ := hs.fields keys ha
  have hid : src.fieldD xs "id" src.text "" = pure doc.id :=
    fieldD_eq hxs (by simp) fun _ => hs.text
  have hrevision : src.fieldD xs "revision" src.int32 0 = pure doc.revision :=
    fieldD_eq hxs (by simp) fun _ => hs.int32
  have hname : src.required xs "name" src.text = pure doc.name :=
    required_eq hxs (by simp) fun _ => hs.text
  have hitems : src.fieldD xs "items" (Item.readList src depth) [] =
      if Data.depthOfItems (Item.listData doc.items) < depth then
        pure (Item.readBackList doc.items) else src.reject :=
    fieldD_eq hxs (by simp) fun _ => Item.readList_eq hs (Item.readBack_of_shows hs doc.items)
  have hdepth : doc.toData.depth ≤ depth + 1 ↔
      Data.depthOfItems (Item.listData doc.items) < depth := by
    rw [depth_toData]
    omega
  rw [read, hfields, pure_bind]
  simp only [hdepth, hid, hrevision, hname, hitems, pure_bind]
  split_ifs
  · rw [pure_bind]
  · rw [hs.reject_bind]

end Document

/-! ## What reading can give -/

/-- What an answer of the source may be : the parts of an answer that is put together may be what
they are said to be, and no answer is nothing. -/
structure Source.Yields {m : Type → Type} [Monad m] {α : Type} (src : Source m α)
    (yields : {β : Type} → m β → β → Prop) : Prop where
  eq_of_pure {β : Type} {b b' : β} : yields (pure b : m β) b' → b = b'
  of_bind {β γ : Type} {x : m β} {f : β → m γ} {c : γ} :
    yields (x >>= f) c → ∃ b, yields x b ∧ yields (f b) c
  not_reject {β : Type} {b : β} : ¬yields (src.reject : m β) b

namespace Source.Yields

variable {m : Type → Type} [Monad m] {α : Type} {src : Source m α}
  {yields : {β : Type} → m β → β → Prop}

/-- What a field says is its default, or is read. -/
theorem fieldD_cases (hy : src.Yields yields) {β : Type} {fields : List (String × α)} {name : String}
    {read : α → m β} {default b : β} (h : yields (src.fieldD fields name read default) b) :
    b = default ∨ ∃ a, yields (read a) b := by
  obtain ⟨value, -, h⟩ := hy.of_bind h
  cases value with
  | none => exact Or.inl (hy.eq_of_pure h).symm
  | some a => exact Or.inr ⟨a, h⟩

theorem exists_of_mem_mapM (hy : src.Yields yields) [LawfulMonad m] {β : Type} {read : α → m β} :
    ∀ {xs : List α} {bs : List β}, yields (xs.mapM read) bs → ∀ b ∈ bs, ∃ a, yields (read a) b
  | [], bs, h => by
    rw [List.mapM_nil] at h
    simp [← hy.eq_of_pure h]
  | a :: xs, bs, h => by
    rw [List.mapM_cons] at h
    obtain ⟨b, hb, h⟩ := hy.of_bind h
    obtain ⟨bs', hbs', h⟩ := hy.of_bind h
    obtain rfl := hy.eq_of_pure h
    exact List.forall_mem_cons.mpr ⟨⟨a, hb⟩, exists_of_mem_mapM hy hbs'⟩

end Source.Yields

namespace Item

variable {m : Type → Type} [Monad m] {α : Type} {src : Source m α}
  {yields : {β : Type} → m β → β → Prop}

theorem unambiguous_of_forall : ∀ {items : List Item},
    (∀ x ∈ items, Unambiguous [x]) → Unambiguous items
  | [], _ => unambiguous_nil
  | x :: items, h => by
    rw [List.forall_mem_cons] at h
    have hitems := unambiguous_of_forall h.2
    cases x <;> simp_all

theorem depthOfItems_le {n : Nat} : ∀ {items : List Item},
    Data.depthOfItems (listData items) ≤ n ↔ ∀ x ∈ items, x.toData.depth ≤ n
  | [] => by simp [listData, Data.depthOfItems]
  | x :: items => by
    rw [listData, Data.depthOfItems, Nat.max_le, depthOfItems_le, List.forall_mem_cons]

/-- The item that an entry stands for has the items of the entry or none. -/
theorem toItem_settled {e : Entry} {n : Nat} (h : Unambiguous e.items)
    (hdepth : e.items ≠ [] → Data.depthOfItems (listData e.items) < n) :
    Unambiguous [e.toItem] ∧ e.toItem.toData.depth ≤ n + 1 := by
  unfold Entry.toItem
  rw [depth_toData]
  split
  case h_6 =>
    refine ⟨by simpa using h, ?_⟩
    cases hitems : e.items with
    | nil => simp [entry]
    | cons x items =>
      have hlt := hdepth (by simp [hitems])
      rw [hitems] at hlt
      simp only [entry, List.isEmpty_cons, Bool.false_eq_true, if_false]
      omega
  all_goals simp_all [entry]

theorem ofFields_settled (hy : src.Yields yields) {nested : α → m (List Item)}
    {fields : List (String × α)} {n : Nat} (hnested : ∀ a items, yields (nested a) items →
      Unambiguous items ∧ (items ≠ [] → Data.depthOfItems (listData items) < n)) {x : Item}
    (h : yields (ofFields src nested fields) x) : Unambiguous [x] ∧ x.toData.depth ≤ n + 1 := by
  obtain ⟨_, -, h⟩ := hy.of_bind h
  obtain ⟨_, -, h⟩ := hy.of_bind h
  obtain ⟨_, -, h⟩ := hy.of_bind h
  obtain ⟨_, -, h⟩ := hy.of_bind h
  obtain ⟨_, -, h⟩ := hy.of_bind h
  obtain ⟨_, -, h⟩ := hy.of_bind h
  obtain ⟨items, hitems, h⟩ := hy.of_bind h
  obtain rfl := hy.eq_of_pure h
  rcases hy.fieldD_cases hitems with rfl | ⟨a, ha⟩
  · exact toItem_settled unambiguous_nil fun hne => (hne rfl).elim
  · exact toItem_settled (hnested a items ha).1 (hnested a items ha).2

mutual

/-- An item that has been read is not of an unknown kind with a known name, and is written with no
more levels than it was read with. -/
theorem read_settled [LawfulMonad m] (hy : src.Yields yields) : ∀ {depth : Nat} {a : α} {x : Item},
    yields (read src depth a) x → Unambiguous [x] ∧ x.toData.depth ≤ depth
  | 0, _, _, h => (hy.not_reject h).elim
  | depth + 1, _, _, h => by
    obtain ⟨fields, -, h⟩ := hy.of_bind h
    cases fields with
    | none => exact (hy.not_reject h).elim
    | some fields => exact ofFields_settled hy (fun _ _ => readList_settled hy) h

theorem readList_settled [LawfulMonad m] (hy : src.Yields yields) :
    ∀ {depth : Nat} {a : α} {items : List Item}, yields (readList src depth a) items →
      Unambiguous items ∧ (items ≠ [] → Data.depthOfItems (listData items) < depth)
  | 0, _, _, h => by
    obtain ⟨xs, -, h⟩ := hy.of_bind h
    cases xs with
    | none => simp [← hy.eq_of_pure h]
    | some xs => exact (hy.not_reject h).elim
  | depth + 1, _, items, h => by
    obtain ⟨xs, -, h⟩ := hy.of_bind h
    cases xs with
    | none => simp [← hy.eq_of_pure h]
    | some xs =>
      have hread : ∀ x ∈ items, Unambiguous [x] ∧ x.toData.depth ≤ depth := by
        intro x hx
        obtain ⟨a, ha⟩ := hy.exists_of_mem_mapM h x hx
        exact read_settled hy ha
      refine ⟨unambiguous_of_forall fun x hx => (hread x hx).1, fun _ => ?_⟩
      exact Nat.lt_succ_of_le (depthOfItems_le.mpr fun x hx => (hread x hx).2)

end

end Item

/-- A document type that has been read has no item of an unknown kind with a known name, and is
written with no more levels than it was read with. -/
theorem Document.read_settled {m : Type → Type} [Monad m] [LawfulMonad m] {α : Type}
    {src : Source m α} {yields : {β : Type} → m β → β → Prop} (hy : src.Yields yields) {depth : Nat}
    {a : α} {doc : Document} (h : yields (read src (depth + 1) a) doc) :
    Item.Unambiguous doc.items ∧ doc.toData.depth ≤ depth + 2 := by
  obtain ⟨fields, -, h⟩ := hy.of_bind h
  cases fields with
  | none => exact (hy.not_reject h).elim
  | some fields =>
    obtain ⟨_, -, h⟩ := hy.of_bind h
    obtain ⟨_, -, h⟩ := hy.of_bind h
    obtain ⟨_, -, h⟩ := hy.of_bind h
    obtain ⟨items, hitems, h⟩ := hy.of_bind h
    obtain rfl := hy.eq_of_pure h
    rw [depth_toData]
    rcases hy.fieldD_cases hitems with rfl | ⟨a, ha⟩
    · simp [Item.listData, Data.depthOfItems]
    · obtain ⟨hunambiguous, hdepth⟩ := Item.readList_settled hy ha
      refine ⟨hunambiguous, ?_⟩
      cases items with
      | nil => simp [Item.listData, Data.depthOfItems]
      | cons x items => exact Nat.add_le_add_right (Nat.le_of_lt_succ (hdepth (by simp))) 2

end DocTables
