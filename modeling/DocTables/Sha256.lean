import DocTables.Bytes

/-!
# SHA-256

The SHA-256 digest of a list of bytes : the message is padded to whole blocks of sixteen words, and
every block is mixed into a state of eight words.
-/

namespace DocTables.Sha256

/-! ## Words -/

/-- Rotate the bits of a word to the right. -/
def rotate (n : UInt32) (x : UInt32) : UInt32 := (x >>> n) ||| (x <<< (32 - n))

/-- The four bytes of a word, the most significant first. -/
def wordBytes (x : UInt32) : List UInt8 :=
  [(x >>> 24).toUInt8, (x >>> 16).toUInt8, (x >>> 8).toUInt8, x.toUInt8]

/-- Read words off a list of bytes. Bytes that do not fill a word are left out. -/
def wordsOfBytes : List UInt8 → List UInt32
  | a :: b :: c :: d :: rest =>
    ((a.toUInt32 <<< 24) ||| (b.toUInt32 <<< 16) ||| (c.toUInt32 <<< 8) ||| d.toUInt32)
      :: wordsOfBytes rest
  | _ => []

/-! ## The message -/

/-- The number of zero bytes that fill up the last block. -/
def paddingZeros (length : Nat) : Nat := (119 - length % 64) % 64

/-- The message, a bit that ends it, zeros, and its length in bits. -/
def pad (message : List UInt8) : List UInt8 :=
  let bits := 8 * message.length
  message ++ 0x80 :: List.replicate (paddingZeros message.length) 0 ++
    wordBytes (UInt32.ofNat (bits / UInt32.size)) ++ wordBytes (UInt32.ofNat bits)

/-- The next word of a schedule whose words so far are `ws`, the last one first. -/
def nextWord (ws : List UInt32) : UInt32 :=
  let a := ws.getD 1 0
  let b := ws.getD 14 0
  (rotate 17 a ^^^ rotate 19 a ^^^ (a >>> 10)) + ws.getD 6 0 +
    (rotate 7 b ^^^ rotate 18 b ^^^ (b >>> 3)) + ws.getD 15 0

/-- Extend a schedule, the last word first, by `n` words. -/
def extend : Nat → List UInt32 → List UInt32
  | 0, ws => ws
  | n + 1, ws => extend n (nextWord ws :: ws)

/-- The sixty-four words that a block of sixteen is mixed in with. -/
def schedule (block : List UInt32) : List UInt32 := (extend 48 block.reverse).reverse

/-! ## The state -/

/-- The constant added in each round : the first bits of the cube roots of the primes. -/
def roundConstants : List UInt32 :=
  [0x428a2f98, 0x71374491, 0xb5c0fbcf, 0xe9b5dba5, 0x3956c25b, 0x59f111f1, 0x923f82a4, 0xab1c5ed5,
   0xd807aa98, 0x12835b01, 0x243185be, 0x550c7dc3, 0x72be5d74, 0x80deb1fe, 0x9bdc06a7, 0xc19bf174,
   0xe49b69c1, 0xefbe4786, 0x0fc19dc6, 0x240ca1cc, 0x2de92c6f, 0x4a7484aa, 0x5cb0a9dc, 0x76f988da,
   0x983e5152, 0xa831c66d, 0xb00327c8, 0xbf597fc7, 0xc6e00bf3, 0xd5a79147, 0x06ca6351, 0x14292967,
   0x27b70a85, 0x2e1b2138, 0x4d2c6dfc, 0x53380d13, 0x650a7354, 0x766a0abb, 0x81c2c92e, 0x92722c85,
   0xa2bfe8a1, 0xa81a664b, 0xc24b8b70, 0xc76c51a3, 0xd192e819, 0xd6990624, 0xf40e3585, 0x106aa070,
   0x19a4c116, 0x1e376c08, 0x2748774c, 0x34b0bcb5, 0x391c0cb3, 0x4ed8aa4a, 0x5b9cca4f, 0x682e6ff3,
   0x748f82ee, 0x78a5636f, 0x84c87814, 0x8cc70208, 0x90befffa, 0xa4506ceb, 0xbef9a3f7, 0xc67178f2]

/-- The eight words that carry the digest from block to block. -/
structure State where
  (a b c d e f g h : UInt32)

namespace State

/-- The state before the first block : the first bits of the square roots of the primes. -/
def start : State :=
  ⟨0x6a09e667, 0xbb67ae85, 0x3c6ef372, 0xa54ff53a, 0x510e527f, 0x9b05688c, 0x1f83d9ab, 0x5be0cd19⟩

/-- One round, with the sum of its constant and its word of the schedule. -/
def round (s : State) (x : UInt32) : State :=
  let t₁ := s.h + (rotate 6 s.e ^^^ rotate 11 s.e ^^^ rotate 25 s.e) +
    ((s.e &&& s.f) ^^^ ((~~~ s.e) &&& s.g)) + x
  let t₂ := (rotate 2 s.a ^^^ rotate 13 s.a ^^^ rotate 22 s.a) +
    ((s.a &&& s.b) ^^^ (s.a &&& s.c) ^^^ (s.b &&& s.c))
  ⟨t₁ + t₂, s.a, s.b, s.c, s.d + t₁, s.e, s.f, s.g⟩

/-- Add two states word by word. -/
def add (s t : State) : State :=
  ⟨s.a + t.a, s.b + t.b, s.c + t.c, s.d + t.d, s.e + t.e, s.f + t.f, s.g + t.g, s.h + t.h⟩

/-- Mix one block into the state. -/
def mix (s : State) (block : List UInt32) : State :=
  s.add ((List.zipWith (· + ·) roundConstants (schedule block)).foldl round s)

/-- Mix `n` blocks of sixteen words into the state. -/
def mixBlocks : Nat → State → List UInt32 → State
  | 0, s, _ => s
  | n + 1, s, words => mixBlocks n (s.mix (words.take 16)) (words.drop 16)

/-- The words of the state, in order. -/
def words (s : State) : List UInt32 := [s.a, s.b, s.c, s.d, s.e, s.f, s.g, s.h]

end State

/-! ## The digest -/

/-- The digest of a message : thirty-two bytes. -/
def digest (message : Bytes) : Bytes :=
  let words := wordsOfBytes (pad message)
  (State.start.mixBlocks (words.length / 16) words).words.flatMap wordBytes

/-- The digest of the UTF-8 form of a text, as sixty-four digits. -/
def hexDigest (s : String) : List Char :=
  (digest (Bytes.ofText s)).flatMap fun b => Digits.hex 'a' 2 b.toNat

end DocTables.Sha256
