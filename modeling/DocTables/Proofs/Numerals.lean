import DocTables.Digits
import Mathlib.Data.Char
import Mathlib.Data.List.Basic
import Mathlib.Data.Nat.Basic

/-!
# Numbers and their digits

The digits of a number in base ten are read back as the number (`number?_toDigits`), and they begin
with a zero for zero alone (`head?_toDigits_ne`). Where other text follows, they end before the first
character that is no digit. A whole number is written with its digits, after a minus sign if it is
negative (`toList_toString_int`).
-/

namespace DocTables.Digits

/-- Digits in base ten are read one after the other, each worth what the library takes it for. -/
theorem foldlM_value? : ∀ {cs : List Char} (n : Nat), (∀ c ∈ cs, c.isDigit) →
    cs.foldlM (fun n c => (value? 10 c).map (10 * n + ·)) n = some (Nat.ofDigitChars 10 cs n)
  | [], n, _ => rfl
  | c :: cs, n, h => by
    have hc : c.isDigit = true := h c (by simp)
    have hlt : c.toNat - '0'.toNat < 10 := by
      have hle : c.toNat ≤ 57 := by
        simpa [Char.isDigit, UInt32.le_iff_toNat_le] using (Bool.and_eq_true_iff.mp hc).2
      have hzero : '0'.toNat = 48 := rfl
      omega
    have hvalue : value? 10 c = some (c.toNat - '0'.toNat) := by
      simp only [value?, hc, if_true, Option.filter_some, hlt, decide_true]
    rw [List.foldlM_cons, hvalue, Nat.ofDigitChars_cons]
    exact foldlM_value? _ fun d hd => h d (by simp [hd])

theorem number?_toDigits (n : Nat) : number? 10 (Nat.toDigits 10 n) = some n := by
  have hdigits : ∀ c ∈ Nat.toDigits 10 n, c.isDigit := fun c hc =>
    Nat.isDigit_of_mem_toDigits (by omega) (by omega) hc
  rw [number?, if_neg (by simp), foldlM_value? 0 hdigits,
    Nat.ofDigitChars_ten_toDigits]

/-- The digits of a number begin with a zero for zero alone. -/
theorem head?_toDigits_ne {n : Nat} (h : n ≠ 0) : (Nat.toDigits 10 n).head? ≠ some '0' := by
  induction n using Nat.strongRecOn with
  | ind n ih =>
    rw [Nat.toDigits_eq_if (by omega)]
    split
    case isTrue hlt =>
      have : ∀ n < 10, n ≠ 0 → n.digitChar ≠ '0' := by decide
      simpa using this n hlt h
    case isFalse hge =>
      rw [List.head?_append_of_ne_nil _ (by simp)]
      exact ih (n / 10) (by omega) (by omega)

/-- The digits of a number begin with a digit. -/
theorem toDigits_eq_cons (n : Nat) : ∃ c cs, Nat.toDigits 10 n = c :: cs ∧ c.isDigit := by
  obtain ⟨c, cs, hcs⟩ := List.exists_cons_of_ne_nil (Nat.toDigits_ne_nil (b := 10) (n := n))
  exact ⟨c, cs, hcs, Nat.isDigit_of_mem_toDigits (by omega) (by omega) (hcs ▸ List.mem_cons_self ..)⟩

/-- The digits of a number stand before a text that does not go on with a digit. -/
theorem takeWhile_toDigits_append (n : Nat) {rest : List Char} (h : ∀ c ∈ rest.head?, ¬c.isDigit) :
    (Nat.toDigits 10 n ++ rest).takeWhile Char.isDigit = Nat.toDigits 10 n := by
  rw [List.takeWhile_append_of_pos fun c hc =>
    Nat.isDigit_of_mem_toDigits (by omega) (by omega) hc]
  cases rest with
  | nil => simp
  | cons c rest => simp [h c (by simp)]

theorem dropWhile_toDigits_append (n : Nat) {rest : List Char} (h : ∀ c ∈ rest.head?, ¬c.isDigit) :
    (Nat.toDigits 10 n ++ rest).dropWhile Char.isDigit = rest := by
  rw [List.dropWhile_append_of_pos fun c hc =>
    Nat.isDigit_of_mem_toDigits (by omega) (by omega) hc]
  cases rest with
  | nil => simp
  | cons c rest => simp [h c (by simp)]

/-- A whole number is written with its digits, after a minus sign if it is negative. -/
theorem toList_toString_int (i : Int) : (toString i).toList =
    if i < 0 then '-' :: Nat.toDigits 10 i.natAbs else Nat.toDigits 10 i.natAbs := by
  rw [Int.toString_eq_repr, Int.repr_eq_if]
  split_ifs with hle hlt hlt
  · omega
  · rw [Nat.repr_eq_ofList_toDigits, String.toList_ofList]
    congr 1
    omega
  · rw [Nat.repr_eq_ofList_toDigits, String.toList_append, String.toList_ofList]
    have : (-i).toNat = i.natAbs := by omega
    simp [this]
  · omega

/-- A whole number is written without underscores. -/
theorem underscore_notMem_toString_int (i : Int) : '_' ∉ (toString i).toList := by
  have hdigits : '_' ∉ Nat.toDigits 10 i.natAbs := by
    intro h
    have := Nat.isDigit_of_mem_toDigits (by omega) (by omega) h
    exact absurd this (by decide)
  rw [toList_toString_int]
  split_ifs
  · simp [hdigits]
  · exact hdigits

theorem toString_int_inj {i j : Int} (h : toString i = toString j) : i = j := by
  have hdigits : ∀ {m n : Nat}, Nat.toDigits 10 m = Nat.toDigits 10 n → m = n := by
    intro m n h
    have := congrArg (number? 10) h
    rwa [number?_toDigits, number?_toDigits, Option.some.injEq] at this
  have hminus : ∀ (n : Nat) (cs : List Char), '-' :: cs ≠ Nat.toDigits 10 n := by
    intro n cs h
    obtain ⟨c, ds, hn, hc⟩ := toDigits_eq_cons n
    obtain rfl := (List.cons.inj (h.trans hn)).1
    exact absurd hc (by decide)
  have hlist := congrArg String.toList h
  rw [toList_toString_int, toList_toString_int] at hlist
  split_ifs at hlist
  · have := hdigits (List.cons.inj hlist).2
    omega
  · exact (hminus _ _ hlist).elim
  · exact (hminus _ _ hlist.symm).elim
  · have := hdigits hlist
    omega

/-- A whole number of thirty-two bits fits in a word. -/
theorem int32?_toInt (i : Int32) : int32? i.toInt = some i := by
  have hi : -2147483648 ≤ i.toInt ∧ i.toInt ≤ 2147483647 := ⟨i.le_toInt, i.toInt_le⟩
  rw [int32?, if_pos hi, Int32.ofInt_toInt]

theorem int32?_eq_some_iff {i : Int} {n : Int32} : int32? i = some n ↔ n.toInt = i := by
  constructor
  · intro h
    unfold int32? at h
    split at h
    case isTrue hi =>
      obtain rfl := Option.some.inj h
      exact Int32.toInt_ofInt_of_le (by omega) (by omega)
    case isFalse => cases h
  · rintro rfl
    exact int32?_toInt n

end DocTables.Digits
