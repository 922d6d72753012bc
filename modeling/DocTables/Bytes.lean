import DocTables.Digits

/-!
# Bytes

Names of files, tags of values and messages are rows of bytes. The bytes of a text are those of its
UTF-8 form, but where bytes are written after percent signs they need not be those of a text.
-/

namespace DocTables

/-- A row of bytes, which need not be those of a text. -/
abbrev Bytes := List UInt8

namespace Bytes

/-- The bytes of a text. -/
def ofText (s : String) : Bytes := s.toUTF8.toList

/-- The text that has these bytes, if there is one. -/
def text? (bytes : Bytes) : Option String := String.fromUTF8? ⟨bytes.toArray⟩

/-- The byte that a percent sign and two digits stand for, and what follows them. -/
def escaped? : List Char → Option (UInt8 × List Char)
  | '%' :: a :: b :: rest => (Digits.number? 16 [a, b]).map fun n => (UInt8.ofNat n, rest)
  | _ => none

end Bytes

end DocTables
