/-!
# Digits

Numbers as rows of digits. The digits after nine are letters, in upper or lower case. A number that
is kept in a word must fit in it.
-/

namespace DocTables.Digits

/-! ## Reading -/

/-- The value of a digit in a base. -/
def value? (base : Nat) (c : Char) : Option Nat :=
  let value :=
    if c.isDigit then some (c.toNat - '0'.toNat)
    else if c.isLower then some (c.toNat - 'a'.toNat + 10)
    else if c.isUpper then some (c.toNat - 'A'.toNat + 10)
    else none
  value.filter (· < base)

/-- The number that one or more digits in a base stand for. -/
def number? (base : Nat) (cs : List Char) : Option Nat :=
  if cs.isEmpty then none
  else cs.foldlM (fun n c => (value? base c).map (base * n + ·)) 0

/-! ## Writing -/

/-- The digit with this value, with the letters that begin with `a`. -/
def digit (a : Char) (n : Nat) : Char :=
  if n < 10 then Char.ofNat (n + '0'.toNat) else Char.ofNat (n - 10 + a.toNat)

/-- The last `width` digits of a number in base sixteen, with the letters that begin with `a`. -/
def hex (a : Char) : (width : Nat) → Nat → List Char
  | 0, _ => []
  | width + 1, n => hex a width (n / 16) ++ [digit a (n % 16)]

/-! ## Words -/

/-- A whole number as a word of thirty-two bits with a sign, if it fits. -/
def int32? (i : Int) : Option Int32 :=
  if -2147483648 ≤ i ∧ i ≤ 2147483647 then some (Int32.ofInt i) else none

end DocTables.Digits
