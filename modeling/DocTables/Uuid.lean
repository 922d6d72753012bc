import DocTables.Digits

/-!
# Ids

A UUID of version four is made of sixteen random bytes, six bits of which are set to say so.
-/

namespace DocTables.Uuid

/-- The number of bytes in every group of digits. -/
def groups : List Nat := [4, 2, 2, 2, 6]

/-- Put in the bits of the version and of the variant. -/
def mark (bytes : List UInt8) : List UInt8 :=
  (bytes.modify 6 fun b => (b &&& 0x0F) ||| 0x40).modify 8 fun b => (b &&& 0x3F) ||| 0x80

/-- Cut a list into groups. -/
def cut : List Nat → List UInt8 → List (List UInt8)
  | [], _ => []
  | n :: ns, bytes => bytes.take n :: cut ns (bytes.drop n)

/-- The text of the id that is made of random bytes. -/
def ofBytes (bytes : List UInt8) : String :=
  String.intercalate "-"
    ((cut groups (mark bytes)).map fun group =>
      String.ofList (group.flatMap fun b => Digits.hex 'a' 2 b.toNat))

end DocTables.Uuid
