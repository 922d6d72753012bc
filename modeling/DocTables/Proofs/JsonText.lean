import DocTables.Json.Printer
import DocTables.Json.Reader
import DocTables.Proofs.Numerals
import Mathlib.Tactic.SplitIfs

/-!
# What is written in JSON reads back

The compact form of data is a JSON text, and its tree is the tree of the data (`parse?_compact`),
whatever characters its texts hold and however deep it is. A part of a text is read back whatever
follows it : a string because it ends at the first quote with no backslash before it, and a number
because what follows does not go on with it (`EndsNumber`). So the proof goes through the data once
(`value?_compactChars`).
-/

namespace DocTables.Json

/-! ## Strings -/

/-- The code of a character is not that of half a pair. -/
theorem not_surrogate (c : Char) : isLeading c.toNat = false ∧ isTrailing c.toNat = false := by
  have hvalid : c.toNat < 0xD800 ∨ (0xDFFF < c.toNat ∧ c.toNat < 0x110000) := c.valid
  simp only [isLeading, isTrailing, Bool.and_eq_false_iff, decide_eq_false_iff_not]
  omega

theorem charsOfCodes?_map_toNat : ∀ cs : List Char,
    charsOfCodes? (cs.map Char.toNat) = some cs
  | [] => rfl
  | [c] => by simp [charsOfCodes?, not_surrogate]
  | c :: d :: cs => by
    have ih := charsOfCodes?_map_toNat (d :: cs)
    simp only [List.map_cons] at ih
    simp [charsOfCodes?, not_surrogate, ih]

/-- A backslash and a letter but `u` stand for one character. -/
theorem stringCodes?_escaped {letter c : Char} (hu : letter ≠ 'u') (hc : unescape? letter = some c)
    (cs : List Char) : stringCodes? ('\\' :: letter :: cs) =
      (stringCodes? cs).map fun (codes, rest) => (c.toNat :: codes, rest) := by
  rw [stringCodes?.eq_def]
  split
  case h_1 heq => cases heq
  case h_2 heq => exact (hu (List.cons.inj (List.cons.inj heq).2).1).elim
  case h_3 heq =>
    obtain ⟨rfl, rfl⟩ := List.cons.inj (List.cons.inj heq).2
    simp only [hc, Option.bind_eq_bind, Option.bind_some, Option.map_eq_bind]
    rfl
  case h_4 hne heq =>
    obtain ⟨rfl, rfl⟩ := List.cons.inj heq
    exact (hne _ _ rfl rfl).elim
  case h_5 heq => cases heq

/-- A character that needs no escape stands for itself. -/
theorem stringCodes?_plain {c : Char} (hquote : c ≠ '"') (hslash : c ≠ '\\') (hc : ¬c.toNat < 0x20)
    (cs : List Char) : stringCodes? (c :: cs) =
      (stringCodes? cs).map fun (codes, rest) => (c.toNat :: codes, rest) := by
  rw [stringCodes?.eq_def]
  split
  case h_4 heq =>
    obtain ⟨rfl, rfl⟩ := List.cons.inj heq
    simp only [hslash, hc, Option.bind_eq_bind, Option.map_eq_bind]
    rfl
  all_goals simp_all

/-- A character is read back from the way it stands in a string. -/
theorem stringCodes?_escape (c : Char) (cs : List Char) : stringCodes? (escape c ++ cs) =
    (stringCodes? cs).map fun (codes, rest) => (c.toNat :: codes, rest) := by
  have hexDigits : ∀ n < 32, Digits.number? 16 (Digits.hex 'a' 4 n) = some n := by decide
  unfold escape
  split_ifs with hquote hslash hback htab hfeed hform hreturn hcontrol
  any_goals
    subst c
    exact stringCodes?_escaped (by decide) (by decide) cs
  · have hn := hexDigits c.toNat hcontrol
    simp only [Digits.hex, List.nil_append, List.cons_append] at hn ⊢
    simp only [stringCodes?, hn]
    simp only [Option.bind_eq_bind, Option.bind_some, Option.map_eq_bind]
    rfl
  · exact stringCodes?_plain hquote hslash hcontrol cs

theorem stringCodes?_flatMap_escape (cs rest : List Char) :
    stringCodes? (cs.flatMap escape ++ '"' :: rest) = some (cs.map Char.toNat, rest) := by
  induction cs with
  | nil => simp [stringCodes?]
  | cons c cs ih =>
    rw [List.flatMap_cons, List.append_assoc, stringCodes?_escape, ih]
    rfl

/-- A string is read back from between its quotes. -/
theorem string?_quoted (s : String) (rest : List Char) :
    string? (s.toList.flatMap escape ++ '"' :: rest) = some (some s, rest) := by
  rw [string?, stringCodes?_flatMap_escape]
  simp [charsOfCodes?_map_toNat]

/-! ## Numbers -/

/-- The text does not go on with a character that may be part of a number. -/
def EndsNumber (cs : List Char) : Prop :=
  ∀ c ∈ cs.head?, ¬c.isDigit ∧ c ≠ '.' ∧ c ≠ 'e' ∧ c ≠ 'E'

theorem unsigned?_toDigits {negative : Bool} {n : Nat} (hn : negative → n ≠ 0) {rest : List Char}
    (h : EndsNumber rest) : unsigned? negative (Nat.toDigits 10 n ++ rest) =
      some (.integer (if negative then -n else n), rest) := by
  have hdigit : ∀ c ∈ rest.head?, ¬c.isDigit := fun c hc => (h c hc).1
  have hzero : ¬((Nat.toDigits 10 n).length ≠ 1 ∧ (Nat.toDigits 10 n).head? = some '0') := by
    rintro ⟨hlength, hhead⟩
    by_cases hn : n = 0
    · simp [hn] at hlength
    · exact Digits.head?_toDigits_ne hn hhead
  have hfraction : skipFraction? rest = some (false, rest) := by
    unfold skipFraction?
    split
    · exact ((h '.' rfl).2.1 rfl).elim
    · rfl
  have hexponent : skipExponent? rest = some (false, rest) := by
    unfold skipExponent?
    split
    · exact ((h 'e' rfl).2.2.1 rfl).elim
    · exact ((h 'E' rfl).2.2.2 rfl).elim
    · rfl
  have hminus : (negative && n == 0) = false := by
    cases negative with
    | false => rfl
    | true => simpa using hn rfl
  rw [unsigned?]
  simp only [Digits.takeWhile_toDigits_append n hdigit, Digits.dropWhile_toDigits_append n hdigit,
    Digits.number?_toDigits, hfraction, if_neg hzero, Option.bind_eq_bind, Option.bind_some,
    hexponent, Bool.false_or, hminus]
  rfl

theorem number?_toString {i : Int} {rest : List Char} (h : EndsNumber rest) :
    number? ((toString i).toList ++ rest) = some (.integer i, rest) := by
  rw [Digits.toList_toString_int]
  split_ifs with hneg
  · have hi : -(i.natAbs : Int) = i := by omega
    rw [List.cons_append, number?, unsigned?_toDigits (by omega) h, if_pos rfl, hi]
  · have hnumber : number? (Nat.toDigits 10 i.natAbs ++ rest) =
        unsigned? false (Nat.toDigits 10 i.natAbs ++ rest) := by
      obtain ⟨c, cs, hcs, hc⟩ := Digits.toDigits_eq_cons i.natAbs
      rw [hcs, List.cons_append, number?.eq_def]
      split
      case h_1 heq =>
        obtain ⟨rfl, -⟩ := List.cons.inj heq
        cases hc
      case h_2 => rfl
    have hi : (i.natAbs : Int) = i := by omega
    rw [hnumber, unsigned?_toDigits (by simp) h, if_neg Bool.false_ne_true, hi]

/-! ## Values -/

theorem skipBlanks_cons {c : Char} (h : isBlank c = false) (cs : List Char) :
    skipBlanks (c :: cs) = c :: cs := by
  simp [skipBlanks, h]

/-- A number does not begin with a blank. -/
theorem isBlank_of_number {c : Char} (h : c = '-' ∨ c.isDigit) : isBlank c = false := by
  by_contra hblank
  simp only [isBlank, Bool.not_eq_false, Bool.or_eq_true, decide_eq_true_eq] at hblank
  rcases hblank with ((rfl | rfl) | rfl) | rfl <;> simp at h

/-- What begins like a number is read as one. -/
theorem value?_number {c : Char} (h : c = '-' ∨ c.isDigit) (fuel : Nat) (cs : List Char) :
    value? (fuel + 1) (c :: cs) = number? (c :: cs) := by
  rw [value?, skipBlanks_cons (isBlank_of_number h)]
  split
  case h_7 => rfl
  all_goals simp_all

theorem value?_toString (i : Int) {fuel : Nat} {rest : List Char} (h : EndsNumber rest) :
    value? (fuel + 1) ((toString i).toList ++ rest) = some (.integer i, rest) := by
  have hcons : ∃ c cs, (toString i).toList ++ rest = c :: cs ∧ (c = '-' ∨ c.isDigit) := by
    rw [Digits.toList_toString_int]
    split_ifs with hneg
    · exact ⟨_, _, rfl, Or.inl rfl⟩
    · obtain ⟨c, cs, hcs, hc⟩ := Digits.toDigits_eq_cons i.natAbs
      exact ⟨c, cs ++ rest, by rw [hcs, List.cons_append], Or.inr hc⟩
  obtain ⟨c, cs, hcs, hc⟩ := hcons
  rw [hcs, value?_number hc, ← hcs, number?_toString h]

/-- A value begins with a character that is no blank and does not end a list. -/
theorem compactChars_eq_cons (d : Data) :
    ∃ c cs, compactChars d = c :: cs ∧ isBlank c = false ∧ c ≠ ']' := by
  cases d with
  | null => exact ⟨_, _, rfl, rfl, by decide⟩
  | bool b => cases b <;> exact ⟨_, _, rfl, rfl, by decide⟩
  | int i =>
    rw [compactChars, Digits.toList_toString_int]
    split_ifs
    · exact ⟨_, _, rfl, rfl, by decide⟩
    · obtain ⟨c, cs, hcs, hc⟩ := Digits.toDigits_eq_cons i.natAbs
      exact ⟨c, cs, hcs, isBlank_of_number (Or.inr hc), by rintro rfl; cases hc⟩
  | text s => exact ⟨_, _, rfl, rfl, by decide⟩
  | list items => exact ⟨_, _, by rw [compactChars], rfl, by decide⟩
  | map fields => exact ⟨_, _, by rw [compactChars], rfl, by decide⟩

theorem compactItems_cons (d : Data) (ds : List Data) : compactItems (d :: ds) =
    compactChars d ++ (if ds.isEmpty then [] else ',' :: compactItems ds) := by
  cases ds <;> simp [compactItems]

theorem compactFields_cons (name : String) (d : Data) (fields : List (String × Data)) :
    compactFields ((name, d) :: fields) = quoted name ++
      ':' :: (compactChars d ++ (if fields.isEmpty then [] else ',' :: compactFields fields)) := by
  cases fields <;> simp [compactFields]

theorem endsNumber_cons {c : Char} (h : ¬c.isDigit ∧ c ≠ '.' ∧ c ≠ 'e' ∧ c ≠ 'E')
    (cs : List Char) : EndsNumber (c :: cs) := by
  intro d hd
  obtain rfl : c = d := by simpa using hd
  exact h

mutual

/-- The reader takes a value off the text that begins with it. Its fuel need not be more than the
length of the value. -/
theorem value?_compactChars : ∀ (d : Data) (fuel : Nat) (rest : List Char),
    (compactChars d).length ≤ fuel → EndsNumber rest →
      value? fuel (compactChars d ++ rest) = some (ofData d, rest)
  | d, 0, _, hfuel, _ => by
    obtain ⟨c, cs, hcs, -⟩ := compactChars_eq_cons d
    simp [hcs] at hfuel
  | .null, fuel + 1, rest, _, _ => by simp [compactChars, value?, skipBlanks_cons, isBlank, ofData]
  | .bool true, fuel + 1, rest, _, _ => by
    simp [compactChars, value?, skipBlanks_cons, isBlank, ofData]
  | .bool false, fuel + 1, rest, _, _ => by
    simp [compactChars, value?, skipBlanks_cons, isBlank, ofData]
  | .int i, fuel + 1, rest, _, hrest => by rw [compactChars, value?_toString i hrest, ofData]
  | .text s, fuel + 1, rest, _, _ => by
    simp [compactChars, quoted, value?, skipBlanks_cons, isBlank, ofData, string?_quoted]
  | .list [], fuel + 1, rest, _, _ => by
    simp [compactChars, compactItems, value?, skipBlanks_cons, isBlank, ofData, ofData.ofItems]
  | .list (d :: ds), fuel + 1, rest, hfuel, _ => by
    have hitems := items?_compactItems d ds fuel rest
      (by simp [compactChars] at hfuel; omega)
    obtain ⟨c, cs, hcs, hblank, hne⟩ := compactChars_eq_cons d
    rw [compactItems_cons, hcs] at hitems
    rw [compactChars, compactItems_cons, hcs]
    simp only [List.cons_append, List.append_assoc, List.nil_append] at hitems ⊢
    rw [value?, skipBlanks_cons rfl]
    simp only [skipBlanks_cons hblank]
    split
    case h_1 heq => exact (hne (List.cons.inj heq).1).elim
    case h_2 => rw [hitems, Option.map_some, ofData]
  | .map [], fuel + 1, rest, _, _ => by
    simp [compactChars, compactFields, value?, skipBlanks_cons, isBlank, ofData, ofData.ofFields]
  | .map ((name, d) :: fields), fuel + 1, rest, hfuel, _ => by
    have hfields := fields?_compactFields name d fields fuel rest
      (by simp [compactChars] at hfuel; omega)
    rw [compactFields_cons, quoted] at hfields
    rw [compactChars, compactFields_cons, quoted]
    simp only [List.cons_append, List.append_assoc, List.nil_append] at hfields ⊢
    rw [value?, skipBlanks_cons rfl]
    simp only [skipBlanks_cons (show isBlank '"' = false from rfl)]
    split
    case h_1 heq => cases heq
    case h_2 => rw [hfields, Option.map_some, ofData]

theorem items?_compactItems : ∀ (d : Data) (ds : List Data) (fuel : Nat) (rest : List Char),
    (compactItems (d :: ds)).length + 1 ≤ fuel →
      items? fuel (compactItems (d :: ds) ++ ']' :: rest) = some (ofData.ofItems (d :: ds), rest)
  | d, ds, 0, _, hfuel => by simp at hfuel
  | d, [], fuel + 1, rest, hfuel => by
    have hd := value?_compactChars d fuel (']' :: rest)
      (by simp [compactItems] at hfuel; omega) (endsNumber_cons (by decide) _)
    simp [compactItems, items?, hd, skipBlanks_cons, isBlank, ofData.ofItems]
  | d, d' :: ds, fuel + 1, rest, hfuel => by
    have hd := value?_compactChars d fuel
      (',' :: (compactItems (d' :: ds) ++ ']' :: rest))
      (by simp [compactItems] at hfuel; omega) (endsNumber_cons (by decide) _)
    have hds := items?_compactItems d' ds fuel rest
      (by simp [compactItems] at hfuel; omega)
    simp [compactItems, items?, hd, hds, skipBlanks_cons, isBlank, ofData.ofItems]

theorem fields?_compactFields : ∀ (name : String) (d : Data) (fields : List (String × Data))
    (fuel : Nat) (rest : List Char), (compactFields ((name, d) :: fields)).length + 1 ≤ fuel →
      fields? fuel (compactFields ((name, d) :: fields) ++ '\x7d' :: rest) =
        some (ofData.ofFields ((name, d) :: fields), rest)
  | _, _, _, 0, _, hfuel => by simp at hfuel
  | name, d, [], fuel + 1, rest, hfuel => by
    have hd := value?_compactChars d fuel ('\x7d' :: rest)
      (by simp [compactFields] at hfuel; omega) (endsNumber_cons (by decide) _)
    simp [compactFields, quoted, fields?, string?_quoted, hd, skipBlanks_cons, isBlank,
      ofData.ofFields]
  | name, d, (name', d') :: fields, fuel + 1, rest, hfuel => by
    have hd := value?_compactChars d fuel
      (',' :: (compactFields ((name', d') :: fields) ++ '\x7d' :: rest))
      (by simp [compactFields] at hfuel; omega) (endsNumber_cons (by decide) _)
    have hds := fields?_compactFields name' d' fields fuel rest
      (by simp [compactFields] at hfuel; omega)
    simp [compactFields, quoted, fields?, string?_quoted, hd, hds, skipBlanks_cons, isBlank,
      ofData.ofFields]

end

/-- What is written in JSON reads back as the same data. -/
theorem parse?_compact (d : Data) : parse? (compact d) = some (ofData d) := by
  have h := value?_compactChars d (2 * (compactChars d).length + 2) []
    (by omega) (by simp [EndsNumber])
  rw [List.append_nil] at h
  simp only [parse?, compact, String.toList_ofList, h, Option.bind_eq_bind, Option.bind_some]
  rfl

end DocTables.Json
