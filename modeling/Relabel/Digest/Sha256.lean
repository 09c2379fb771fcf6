import Relabel.Bytes.Cursor
import Relabel.Text.Hex

/-!
# SHA-256

The digest that a report gives for the archive it wrote. The message is padded to whole blocks of sixteen
words, and every block is stirred into a state of eight words in 64 rounds.
-/

set_option autoImplicit false

namespace Relabel.Sha256

/-- The eight words that are stirred. -/
structure State where
  a : UInt32
  b : UInt32
  c : UInt32
  d : UInt32
  e : UInt32
  f : UInt32
  g : UInt32
  h : UInt32
  deriving DecidableEq, Repr

/-- The state before the first block: the fractions of the square roots of the first eight primes. -/
def State.initial : State :=
  ⟨0x6a09e667, 0xbb67ae85, 0x3c6ef372, 0xa54ff53a,
    0x510e527f, 0x9b05688c, 0x1f83d9ab, 0x5be0cd19⟩

/-- A number for each round: the fractions of the cube roots of the first 64 primes. -/
def roundConstants : List UInt32 :=
  [
    0x428a2f98, 0x71374491, 0xb5c0fbcf, 0xe9b5dba5, 0x3956c25b, 0x59f111f1,
    0x923f82a4, 0xab1c5ed5, 0xd807aa98, 0x12835b01, 0x243185be, 0x550c7dc3,
    0x72be5d74, 0x80deb1fe, 0x9bdc06a7, 0xc19bf174, 0xe49b69c1, 0xefbe4786,
    0x0fc19dc6, 0x240ca1cc, 0x2de92c6f, 0x4a7484aa, 0x5cb0a9dc, 0x76f988da,
    0x983e5152, 0xa831c66d, 0xb00327c8, 0xbf597fc7, 0xc6e00bf3, 0xd5a79147,
    0x06ca6351, 0x14292967, 0x27b70a85, 0x2e1b2138, 0x4d2c6dfc, 0x53380d13,
    0x650a7354, 0x766a0abb, 0x81c2c92e, 0x92722c85, 0xa2bfe8a1, 0xa81a664b,
    0xc24b8b70, 0xc76c51a3, 0xd192e819, 0xd6990624, 0xf40e3585, 0x106aa070,
    0x19a4c116, 0x1e376c08, 0x2748774c, 0x34b0bcb5, 0x391c0cb3, 0x4ed8aa4a,
    0x5b9cca4f, 0x682e6ff3, 0x748f82ee, 0x78a5636f, 0x84c87814, 0x8cc70208,
    0x90befffa, 0xa4506ceb, 0xbef9a3f7, 0xc67178f2]

/-- Turns a word to the right, for `0 < n < 32`. -/
def rotate (n x : UInt32) : UInt32 :=
  (x >>> n) ||| (x <<< (32 - n))

/-- The message word of the round that comes after `words.size` rounds. -/
def nextWord (words : Array UInt32) : UInt32 :=
  let word (back : Nat) : UInt32 := words.getD (words.size - back) 0
  let x := word 15
  let y := word 2
  (rotate 7 x ^^^ rotate 18 x ^^^ (x >>> 3)) + (rotate 17 y ^^^ rotate 19 y ^^^ (y >>> 10))
    + word 7 + word 16

/-- The message words of all rounds, from the sixteen words of a block. -/
def schedule (block : Array UInt32) : Array UInt32 :=
  (List.range 48).foldl (fun words _ => words.push (nextWord words)) block

/-- One round with a message word and a round constant. -/
def State.round (s : State) (word constant : UInt32) : State :=
  let stir := rotate 6 s.e ^^^ rotate 11 s.e ^^^ rotate 25 s.e
  let choice := (s.e &&& s.f) ^^^ ((s.e ^^^ 0xffffffff) &&& s.g)
  let first := s.h + stir + choice + constant + word
  let turn := rotate 2 s.a ^^^ rotate 13 s.a ^^^ rotate 22 s.a
  let majority := (s.a &&& s.b) ^^^ (s.a &&& s.c) ^^^ (s.b &&& s.c)
  ⟨first + (turn + majority), s.a, s.b, s.c, s.d + first, s.e, s.f, s.g⟩

/-- Word by word sums. -/
def State.add (s t : State) : State :=
  ⟨s.a + t.a, s.b + t.b, s.c + t.c, s.d + t.d, s.e + t.e, s.f + t.f, s.g + t.g, s.h + t.h⟩

/-- Stirs a block of sixteen words into the state. -/
def State.absorb (s : State) (block : Array UInt32) : State :=
  s.add (((schedule block).toList.zip roundConstants).foldl (fun t (w, k) => t.round w k) s)

/-- The words that bytes spell, four bytes each. -/
def words (acc : Array UInt32) : Bytes → Array UInt32
  | a :: b :: c :: d :: rest =>
    words (acc.push (UInt32.ofNat (Bytes.toNatBE [a, b, c, d]))) rest
  | _ => acc

/-- Stirs `n` blocks of words from position `i` on into the state. -/
def absorbAll (message : Array UInt32) : (n i : Nat) → State → State
  | 0, _, s => s
  | n + 1, i, s => absorbAll message n (i + 16) (s.absorb (message.extract i (i + 16)))

/-- A message of `n` bytes is followed by a one bit, by zeros and by its length in bits, so that it fills
whole blocks of 64 bytes. -/
def padding (n : Nat) : Bytes :=
  0x80 :: (List.replicate ((119 - n % 64) % 64) 0 ++ Bytes.ofUInt64 (UInt64.ofNat (8 * n)))

/-- The eight words of a state as bytes. -/
def State.toBytes (s : State) : Bytes :=
  [s.a, s.b, s.c, s.d, s.e, s.f, s.g, s.h].flatMap Bytes.ofUInt32

/-- The digest of a byte string. -/
def digest (bytes : Bytes) : Bytes :=
  let message := words #[] (bytes ++ padding bytes.length)
  (absorbAll message (message.size / 16) 0 .initial).toBytes

/-- The digest of a byte string as text. -/
def hex (bytes : Bytes) : String :=
  Text.hexBytes (digest bytes)

end Relabel.Sha256
