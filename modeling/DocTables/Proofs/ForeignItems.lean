import DocTables.Proofs.Rendering
import DocTables.Proofs.Tabulation

/-!
# The first item of an unknown kind

A document type with an item of an unknown kind has no tables and no script, whatever the naming :
the first such item in the order of declaration is named with its kind and with the sections around
it (`exists_first_foreign`).

The error joins the names of the sections by slashes (`trailOf_eq_intercalate`), as they are and not
as they stand in table names. Where no section has a slash in its name, they can be read off it
again (`splitOn_intercalate_slash`).
-/

namespace DocTables

/-! ## What is listed -/

namespace Item

variable {x : Item} {around : List String}

/-- The items in the order of declaration are those at any depth, and the sections around one of
them are among these items, but for those around the whole list. -/
theorem within_of_mem_preorderOfItems : ∀ {sections : List String} {items : List Item},
    (around, x) ∈ preorderOfItems sections items → x.Within items ∧ ∀ name ∈ around,
      name ∈ sections ∨ ∃ flags inner, (group name flags inner).Within items
  | _, [], h => by simp [preorderOfItems] at h
  | sections, item :: items, h => by
    rw [preorderOfItems, List.mem_append] at h
    rcases h with h | h
    · cases item with
      | group n flags inner =>
        rw [preorder, List.mem_cons] at h
        rcases h with h | h
        · obtain ⟨rfl, rfl⟩ := Prod.mk.inj h
          exact ⟨.here (by simp), fun _ => Or.inl⟩
        · obtain ⟨hx, hnames⟩ := within_of_mem_preorderOfItems h
          refine ⟨.inside (List.mem_cons_self ..) hx, fun name hname => ?_⟩
          rcases hnames name hname with hname | ⟨_, _, hwithin⟩
          · rw [List.mem_append, List.mem_singleton] at hname
            rcases hname with hname | rfl
            · exact Or.inl hname
            · exact Or.inr ⟨flags, inner, .here (by simp)⟩
          · exact Or.inr ⟨_, _, .inside (List.mem_cons_self ..) hwithin⟩
      | _ =>
        obtain ⟨rfl, rfl⟩ : around = sections ∧ x = _ := by simpa [preorder] using h
        exact ⟨.here (by simp), fun _ => Or.inl⟩
    · obtain ⟨hx, hnames⟩ := within_of_mem_preorderOfItems h
      refine ⟨within_cons.mpr (Or.inr (Or.inr hx)), fun name hname => ?_⟩
      rcases hnames name hname with hname | ⟨_, _, hwithin⟩
      · exact Or.inl hname
      · exact Or.inr ⟨_, _, within_cons.mpr (Or.inr (Or.inr hwithin))⟩

end Item

/-! ## The path in an error -/

theorem trailOf_eq_intercalate {sections : List String} (h : ∀ name ∈ sections, name ≠ "") :
    trailOf sections = "/".intercalate sections := by
  cases sections with
  | nil => simp [trailOf]
  | cons name sections =>
    have hjoin : ∀ (trail : String) (rest : List String), trail ≠ "" →
        rest.foldl (fun trail name => if trail.isEmpty then name else trail ++ "/" ++ name) trail =
          "/".intercalate (trail :: rest) := by
      intro trail rest htrail
      induction rest generalizing trail with
      | nil => simp
      | cons name rest ih =>
        rw [List.foldl_cons, if_neg (by simpa using htrail), ih _ (by simp [htrail]),
          String.intercalate_cons_append, String.intercalate_cons_cons]
    simpa [trailOf] using hjoin name sections (h name (by simp))

/-- Names without slashes can be told apart in what they are joined to. -/
theorem splitOn_intercalate_slash {sections : List String}
    (h : ∀ name ∈ sections, '/' ∉ name.toList) (hne : "/".intercalate sections ≠ "") :
    (("/".intercalate sections).toList.splitOn '/').map String.ofList = sections := by
  have hsections : sections ≠ [] := by
    rintro rfl
    exact hne String.intercalate_nil
  have hsplit : (['/'].intercalate (sections.map String.toList)).splitOn '/' =
      sections.map String.toList :=
    List.splitOn_intercalate '/' (by simpa using h) (by simpa using hsections)
  rw [String.toList_intercalate, show "/".toList = ['/'] from rfl, hsplit]
  simp [Function.comp_def]

/-! ## Documents -/

/-- A document type with an item of an unknown kind and no section without a name has no tables and
no script under any naming. The error gives the first such item in the order of declaration, with
the names of the sections around it. If no section has a slash in its name, the slashes of a path
that is not empty part these names. -/
theorem exists_first_foreign {doc : Document} (hforeign : ¬Item.Known doc.items)
    (hnames : ∀ name flags inner, (Item.group name flags inner).Within doc.items → name ≠ "") :
    ∃ before sections kind name after,
      Item.preorderOfItems [] doc.items = before ++ (sections, .foreign kind name) :: after ∧
      (∀ entry ∈ before, ∀ kind name, entry.2 ≠ .foreign kind name) ∧
      (∀ naming, doc.decompose naming =
        .error (.unrecognizedKind ("/".intercalate sections) name kind)) ∧
      (∀ c : Compiler, c.compile doc =
        .error (.unrecognizedKind ("/".intercalate sections) name kind)) ∧
      ((∀ name flags inner, (Item.group name flags inner).Within doc.items → '/' ∉ name.toList) →
        "/".intercalate sections ≠ "" →
        (("/".intercalate sections).toList.splitOn '/').map String.ofList = sections) := by
  obtain ⟨sections, kind, name, hfirst⟩ := Item.exists_firstForeign? [] hforeign
  obtain ⟨-, before, after, hlist, hbefore⟩ := List.find?_eq_some_iff_append.mp hfirst
  have hmem : (sections, .foreign kind name) ∈ Item.preorderOfItems [] doc.items := by simp [hlist]
  have hwithin : ∀ name ∈ sections, ∃ flags inner, (Item.group name flags inner).Within doc.items :=
    fun name hname =>
      ((Item.within_of_mem_preorderOfItems hmem).2 name hname).resolve_left (by simp)
  have htrail : trailOf sections = "/".intercalate sections :=
    trailOf_eq_intercalate fun name hname =>
      let ⟨_, _, h⟩ := hwithin name hname
      hnames _ _ _ h
  have hdecompose := decompose_eq_error hfirst
  rw [htrail] at hdecompose
  refine ⟨before, sections, kind, name, after, hlist, ?_, hdecompose,
    fun c => compile_eq_error_of_decompose (hdecompose c.naming), ?_⟩
  · rintro ⟨_, _⟩ hentry kind name rfl
    simpa [Item.isForeign] using hbefore _ hentry
  · intro hslash
    exact splitOn_intercalate_slash fun name hname =>
      let ⟨_, _, h⟩ := hwithin name hname
      hslash _ _ _ h

/-- The sections around the first item of an unknown kind have spaces and underscores in their
names. A section of the same name comes before, and more items of unknown kinds follow. -/
theorem exists_first_foreign_nested :
    let doc : Document :=
      { name := "order"
        items := [
          .integer "no",
          .group "line items" {} [.boolean "open"],
          .group "line items" {} [.group "a_b c" {} [.foreign "image" "photo", .upload "bill"]],
          .foreign "date" "due"] }
    (¬Item.Known doc.items ∧
      (∀ name flags inner, (Item.group name flags inner).Within doc.items → name ≠ "") ∧
      ∀ name flags inner, (Item.group name flags inner).Within doc.items → '/' ∉ name.toList) ∧
    (∀ naming, doc.decompose naming =
      .error (.unrecognizedKind "line items/a_b c" "photo" "image")) ∧
    (∀ c : Compiler, c.compile doc =
      .error (.unrecognizedKind "line items/a_b c" "photo" "image")) ∧
    ∃ before after, Item.preorderOfItems [] doc.items =
      before ++ (["line items", "a_b c"], .foreign "image" "photo") :: after := by
  intro doc
  have hforeign : ¬Item.Known doc.items := fun h => h "date" "due" (.here (by decide))
  have hsections : ∀ name flags inner, (Item.group name flags inner).Within doc.items →
      name = "line items" ∨ name = "a_b c" := by
    intro name flags inner h
    simp [doc, Item.integer, Item.boolean, Item.upload, ↓Item.within_group_cons, Item.within_cons,
      Item.not_within_nil] at h
    rcases h with ⟨rfl, -⟩ | ⟨rfl, -⟩ | ⟨rfl, -⟩ <;> simp
  have hnames : ∀ name flags inner, (Item.group name flags inner).Within doc.items → name ≠ "" := by
    intro name flags inner h
    rcases hsections name flags inner h with rfl | rfl <;> decide
  have hslash : ∀ name flags inner, (Item.group name flags inner).Within doc.items →
      '/' ∉ name.toList := by
    intro name flags inner h
    rcases hsections name flags inner h with rfl | rfl <;> decide
  obtain ⟨before, sections, kind, name, after, hlist, -, hdecompose, hcompile, hsplit⟩ :=
    exists_first_foreign hforeign hnames
  have herror : doc.decompose (.plain .raw) =
      .error (.unrecognizedKind "line items/a_b c" "photo" "image") := rfl
  obtain ⟨htrail, rfl, rfl⟩ :=
    Error.unrecognizedKind.inj (Except.error.inj ((hdecompose _).symm.trans herror))
  rw [htrail] at hdecompose hcompile hsplit
  obtain rfl : ["line items", "a_b c"] = sections := hsplit hslash (by decide)
  exact ⟨⟨hforeign, hnames, hslash⟩, hdecompose, hcompile, before, after, hlist⟩

end DocTables
