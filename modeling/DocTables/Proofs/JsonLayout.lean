import DocTables.Proofs.JsonText

/-!
# The lines of a JSON text

The pretty form of data has blanks between its parts, and is read as the same tree as the compact
form (`Json.parse?_pretty`). A reader leaves out the blanks before a part, so texts that differ only
in these are read alike (`Json.value?_congr`); with this the proof goes through the data as it does
for the compact form.
-/

namespace DocTables.Json

/-! ## Blanks -/

theorem skipBlanks_newLine (indent : Nat) (cs : List Char) :
    skipBlanks (newLine indent ++ cs) = skipBlanks cs := by
  have hspaces : ∀ indent, skipBlanks (List.replicate indent ' ' ++ cs) = skipBlanks cs := by
    intro indent
    induction indent with
    | zero => rfl
    | succ indent ih => exact ih
  exact hspaces indent

theorem skipBlanks_space (cs : List Char) : skipBlanks (' ' :: cs) = skipBlanks cs := rfl

theorem skipBlanks_newLine_cons (indent : Nat) {c : Char} (h : isBlank c = false) (cs : List Char) :
    skipBlanks (newLine indent ++ c :: cs) = c :: cs := by
  rw [skipBlanks_newLine, skipBlanks_cons h]

/-- Blanks before a value do not matter. -/
theorem value?_congr {cs cs' : List Char} (h : skipBlanks cs = skipBlanks cs') (fuel : Nat) :
    value? fuel cs = value? fuel cs' := by
  cases fuel with
  | zero => rw [value?, value?]
  | succ fuel => rw [value?, value?, h]

theorem items?_congr {cs cs' : List Char} (h : skipBlanks cs = skipBlanks cs') (fuel : Nat) :
    items? fuel cs = items? fuel cs' := by
  cases fuel with
  | zero => rw [items?, items?]
  | succ fuel => rw [items?, items?, value?_congr h]

theorem fields?_congr {cs cs' : List Char} (h : skipBlanks cs = skipBlanks cs') (fuel : Nat) :
    fields? fuel cs = fields? fuel cs' := by
  cases fuel with
  | zero => rw [fields?, fields?]
  | succ fuel => rw [fields?, fields?, h]

/-! ## Values -/

/-- A value begins with a character that is no blank and does not end a list. -/
theorem prettyChars_eq_cons (indent : Nat) (d : Data) :
    ∃ c cs, prettyChars indent d = c :: cs ∧ isBlank c = false ∧ c ≠ ']' := by
  cases d with
  | null => exact compactChars_eq_cons .null
  | bool b => exact compactChars_eq_cons (.bool b)
  | int i => exact compactChars_eq_cons (.int i)
  | text s => exact ⟨_, _, rfl, rfl, by decide⟩
  | list items => cases items <;> exact ⟨_, _, by simp only [prettyChars]; rfl, rfl, by decide⟩
  | map fields => cases fields <;> exact ⟨_, _, by simp only [prettyChars]; rfl, rfl, by decide⟩

theorem prettyItems_cons (indent : Nat) (d : Data) (ds : List Data) :
    prettyItems indent (d :: ds) = newLine indent ++
      (prettyChars indent d ++ (if ds.isEmpty then [] else ',' :: prettyItems indent ds)) := by
  cases ds <;> simp [prettyItems]

theorem prettyFields_cons (indent : Nat) (name : String) (d : Data)
    (fields : List (String × Data)) : prettyFields indent ((name, d) :: fields) =
      newLine indent ++ (quoted name ++ ':' :: ' ' :: (prettyChars indent d ++
        (if fields.isEmpty then [] else ',' :: prettyFields indent fields))) := by
  cases fields <;> simp [prettyFields]

theorem endsNumber_newLine (indent : Nat) (cs : List Char) : EndsNumber (newLine indent ++ cs) :=
  endsNumber_cons (by decide) _

mutual

/-- The reader takes a value off the text that begins with it, wherever the lines of it begin. -/
theorem value?_prettyChars : ∀ (d : Data) (indent fuel : Nat) (rest : List Char),
    (prettyChars indent d).length ≤ fuel → EndsNumber rest →
      value? fuel (prettyChars indent d ++ rest) = some (ofData d, rest)
  | d, indent, 0, _, hfuel, _ => by
    obtain ⟨c, cs, hcs, -⟩ := prettyChars_eq_cons indent d
    simp [hcs] at hfuel
  | .null, indent, fuel + 1, rest, hfuel, hrest => value?_compactChars .null _ _ hfuel hrest
  | .bool b, indent, fuel + 1, rest, hfuel, hrest => value?_compactChars (.bool b) _ _ hfuel hrest
  | .int i, indent, fuel + 1, rest, hfuel, hrest => value?_compactChars (.int i) _ _ hfuel hrest
  | .text s, indent, fuel + 1, rest, hfuel, hrest => by
    have h := value?_compactChars (.text s) (fuel + 1) rest
    simp only [compactChars] at h
    exact h hfuel hrest
  | .list [], indent, fuel + 1, rest, _, _ => by
    simp [prettyChars, value?, skipBlanks_cons, isBlank, ofData, ofData.ofItems]
  | .list (d :: ds), indent, fuel + 1, rest, hfuel, _ => by
    have hitems := items?_prettyItems d ds (indent + 2) fuel indent rest
      (by simp [prettyChars] at hfuel; omega)
    obtain ⟨c, cs, hcs, hblank, hne⟩ := prettyChars_eq_cons (indent + 2) d
    have hskip : ∃ cs, skipBlanks (prettyItems (indent + 2) (d :: ds) ++
        (newLine indent ++ ']' :: rest)) = c :: cs := by
      rw [prettyItems_cons, List.append_assoc, skipBlanks_newLine, hcs]
      exact ⟨_, skipBlanks_cons hblank _⟩
    obtain ⟨cs', hskip⟩ := hskip
    have hrest : items? fuel (c :: cs') = some (ofData.ofItems (d :: ds), rest) :=
      (items?_congr ((skipBlanks_cons hblank cs').trans hskip.symm) fuel).trans hitems
    simp only [prettyChars, List.cons_append, List.append_assoc, List.nil_append]
    rw [value?, skipBlanks_cons rfl]
    simp only [hskip]
    split
    case h_1 heq => exact (hne (List.cons.inj heq).1).elim
    case h_2 => rw [hrest, Option.map_some, ofData]
  | .map [], indent, fuel + 1, rest, _, _ => by
    simp [prettyChars, value?, skipBlanks_cons, isBlank, ofData, ofData.ofFields]
  | .map ((name, d) :: fields), indent, fuel + 1, rest, hfuel, _ => by
    have hfields := fields?_prettyFields name d fields (indent + 2) fuel indent rest
      (by simp [prettyChars] at hfuel; omega)
    have hskip : ∃ cs, skipBlanks (prettyFields (indent + 2) ((name, d) :: fields) ++
        (newLine indent ++ '\x7d' :: rest)) = '"' :: cs := by
      rw [prettyFields_cons, List.append_assoc, skipBlanks_newLine, quoted]
      exact ⟨_, skipBlanks_cons rfl _⟩
    obtain ⟨cs, hskip⟩ := hskip
    have hrest : fields? fuel ('"' :: cs) = some (ofData.ofFields ((name, d) :: fields), rest) :=
      (fields?_congr ((skipBlanks_cons rfl cs).trans hskip.symm) fuel).trans hfields
    simp only [prettyChars, List.cons_append, List.append_assoc, List.nil_append]
    rw [value?, skipBlanks_cons rfl]
    simp only [hskip]
    split
    case h_1 heq => cases heq
    case h_2 => rw [hrest, Option.map_some, ofData]
termination_by structural _ _ fuel => fuel

theorem items?_prettyItems : ∀ (d : Data) (ds : List Data) (indent fuel outer : Nat)
    (rest : List Char), (prettyItems indent (d :: ds)).length + 1 ≤ fuel →
      items? fuel (prettyItems indent (d :: ds) ++ (newLine outer ++ ']' :: rest)) =
        some (ofData.ofItems (d :: ds), rest)
  | d, ds, _, 0, _, _, hfuel => by simp at hfuel
  | d, [], indent, fuel + 1, outer, rest, hfuel => by
    have hd := value?_prettyChars d indent fuel (newLine outer ++ ']' :: rest)
      (by simp [prettyItems] at hfuel; omega) (endsNumber_newLine _ _)
    have hblanks := (value?_congr (skipBlanks_newLine indent _) fuel).trans hd
    have hclose := skipBlanks_newLine_cons outer (show isBlank ']' = false from rfl) rest
    simp [prettyItems, items?, hblanks, hclose, ofData.ofItems]
  | d, d' :: ds, indent, fuel + 1, outer, rest, hfuel => by
    have hd := value?_prettyChars d indent fuel
      (',' :: (prettyItems indent (d' :: ds) ++ (newLine outer ++ ']' :: rest)))
      (by simp [prettyItems] at hfuel; omega) (endsNumber_cons (by decide) _)
    have hds := items?_prettyItems d' ds indent fuel outer rest
      (by simp [prettyItems] at hfuel ⊢; omega)
    have hblanks := (value?_congr (skipBlanks_newLine indent _) fuel).trans hd
    simp [prettyItems, items?, hblanks, skipBlanks_cons, isBlank, hds, ofData.ofItems]
termination_by structural _ _ _ fuel => fuel

theorem fields?_prettyFields : ∀ (name : String) (d : Data) (fields : List (String × Data))
    (indent fuel outer : Nat) (rest : List Char),
    (prettyFields indent ((name, d) :: fields)).length + 1 ≤ fuel →
      fields? fuel (prettyFields indent ((name, d) :: fields) ++ (newLine outer ++ '\x7d' :: rest)) =
        some (ofData.ofFields ((name, d) :: fields), rest)
  | _, _, _, _, 0, _, _, hfuel => by simp at hfuel
  | name, d, [], indent, fuel + 1, outer, rest, hfuel => by
    have hd := value?_prettyChars d indent fuel (newLine outer ++ '\x7d' :: rest)
      (by simp [prettyFields] at hfuel; omega) (endsNumber_newLine _ _)
    have hblanks := (value?_congr (skipBlanks_space _) fuel).trans hd
    have hclose := skipBlanks_newLine_cons outer (show isBlank '\x7d' = false from rfl) rest
    simp [prettyFields, quoted, fields?, skipBlanks_newLine_cons, skipBlanks_cons, isBlank,
      string?_quoted, hblanks, hclose, ofData.ofFields]
  | name, d, (name', d') :: fields, indent, fuel + 1, outer, rest, hfuel => by
    have hd := value?_prettyChars d indent fuel
      (',' :: (prettyFields indent ((name', d') :: fields) ++ (newLine outer ++ '\x7d' :: rest)))
      (by simp [prettyFields] at hfuel; omega) (endsNumber_cons (by decide) _)
    have hds := fields?_prettyFields name' d' fields indent fuel outer rest
      (by simp [prettyFields] at hfuel ⊢; omega)
    have hblanks := (value?_congr (skipBlanks_space _) fuel).trans hd
    simp [prettyFields, quoted, fields?, skipBlanks_newLine_cons, skipBlanks_cons, isBlank,
      string?_quoted, hblanks, hds, ofData.ofFields]
termination_by structural _ _ _ _ fuel => fuel

end

/-- What is written in JSON on many lines reads back as the same data. -/
theorem parse?_pretty (d : Data) : parse? (pretty d ++ "\n") = some (ofData d) := by
  have h := value?_prettyChars d 0 (2 * (prettyChars 0 d ++ ['\n']).length + 2) ['\n']
    (by simp; omega) (endsNumber_cons (by decide) _)
  have hchars : (pretty d ++ "\n").toList = prettyChars 0 d ++ ['\n'] := by
    simp [pretty]
  rw [parse?, hchars]
  simp only [h, Option.bind_eq_bind, Option.bind_some]
  rfl

end DocTables.Json
