import Stencil.Bytes

/-!
# Digests

The SHA-256 digest of a byte string.

Algorithm: the message is padded to blocks of 64 bytes, each block is expanded to a schedule of 64
words, and every word of the schedule advances eight working words by one round.
-/

namespace Stencil
namespace Digest

/-- The working words. -/
structure State where
  a : UInt32
  b : UInt32
  c : UInt32
  d : UInt32
  e : UInt32
  f : UInt32
  g : UInt32
  h : UInt32

/-- The constants of the rounds. -/
def roundConstants : List UInt32 :=
  [0x428a2f98, 0x71374491, 0xb5c0fbcf, 0xe9b5dba5, 0x3956c25b, 0x59f111f1, 0x923f82a4, 0xab1c5ed5,
   0xd807aa98, 0x12835b01, 0x243185be, 0x550c7dc3, 0x72be5d74, 0x80deb1fe, 0x9bdc06a7, 0xc19bf174,
   0xe49b69c1, 0xefbe4786, 0x0fc19dc6, 0x240ca1cc, 0x2de92c6f, 0x4a7484aa, 0x5cb0a9dc, 0x76f988da,
   0x983e5152, 0xa831c66d, 0xb00327c8, 0xbf597fc7, 0xc6e00bf3, 0xd5a79147, 0x06ca6351, 0x14292967,
   0x27b70a85, 0x2e1b2138, 0x4d2c6dfc, 0x53380d13, 0x650a7354, 0x766a0abb, 0x81c2c92e, 0x92722c85,
   0xa2bfe8a1, 0xa81a664b, 0xc24b8b70, 0xc76c51a3, 0xd192e819, 0xd6990624, 0xf40e3585, 0x106aa070,
   0x19a4c116, 0x1e376c08, 0x2748774c, 0x34b0bcb5, 0x391c0cb3, 0x4ed8aa4a, 0x5b9cca4f, 0x682e6ff3,
   0x748f82ee, 0x78a5636f, 0x84c87814, 0x8cc70208, 0x90befffa, 0xa4506ceb, 0xbef9a3f7, 0xc67178f2]

/-- The words before the first block. -/
def initial : State :=
  ⟨0x6a09e667, 0xbb67ae85, 0x3c6ef372, 0xa54ff53a, 0x510e527f, 0x9b05688c, 0x1f83d9ab, 0x5be0cd19⟩

/-- A word rotated to the right. -/
def rotate (x : UInt32) (n : UInt32) : UInt32 := (x >>> n) ||| (x <<< (32 - n))

/-- One round with a constant and a word of the schedule. -/
def round (s : State) (k w : UInt32) : State :=
  let sum₁ := rotate s.e 6 ^^^ rotate s.e 11 ^^^ rotate s.e 25
  let choice := (s.e &&& s.f) ^^^ (~~~ s.e &&& s.g)
  let t₁ := s.h + sum₁ + choice + k + w
  let sum₀ := rotate s.a 2 ^^^ rotate s.a 13 ^^^ rotate s.a 22
  let majority := (s.a &&& s.b) ^^^ (s.a &&& s.c) ^^^ (s.b &&& s.c)
  ⟨t₁ + (sum₀ + majority), s.a, s.b, s.c, s.d + t₁, s.e, s.f, s.g⟩

/-- The next word of a schedule, whose words are given last first. -/
def nextWord (ws : List UInt32) : UInt32 :=
  let word (i : Nat) : UInt32 := (ws[i]?).getD 0
  let x := word 14
  let y := word 1
  (rotate y 17 ^^^ rotate y 19 ^^^ (y >>> 10)) + word 6 +
    (rotate x 7 ^^^ rotate x 18 ^^^ (x >>> 3)) + word 15

/-- A schedule extended by some words, last first. -/
def extend : Nat → List UInt32 → List UInt32
  | 0, ws => ws
  | n + 1, ws => extend n (nextWord ws :: ws)

/-- The words of a byte string, four bytes each with the most significant first. -/
def words : Bytes → List UInt32
  | a :: b :: c :: d :: rest =>
    ((a.toUInt32 <<< 24) ||| (b.toUInt32 <<< 16) ||| (c.toUInt32 <<< 8) ||| d.toUInt32) ::
      words rest
  | _ => []

/-- The words after a block. -/
def compress (s : State) (block : Bytes) : State :=
  let schedule := (extend 48 (words block).reverse).reverse
  let r := (roundConstants.zip schedule).foldl (fun r kw => round r kw.1 kw.2) s
  ⟨s.a + r.a, s.b + r.b, s.c + r.c, s.d + r.d, s.e + r.e, s.f + r.f, s.g + r.g, s.h + r.h⟩

/-- The bytes of a number, the most significant first. -/
def bigEndian : (width n : Nat) → Bytes
  | 0, _ => []
  | w + 1, n => bigEndian w (n / 256) ++ [n.toUInt8]

/-- A message padded to full blocks: a one bit, zeros, and the length in bits. -/
def pad (s : Bytes) : Bytes :=
  s ++ [0x80] ++ List.replicate ((119 - s.length % 64) % 64) 0 ++ bigEndian 8 (8 * s.length)

/-- The blocks of a padded message. -/
def blocks : (count : Nat) → Bytes → List Bytes
  | 0, _ => []
  | n + 1, s => s.take 64 :: blocks n (s.drop 64)

/-- The digest of a byte string. -/
def sha256 (s : Bytes) : Bytes :=
  let padded := pad s
  let r := (blocks (padded.length / 64) padded).foldl compress initial
  [r.a, r.b, r.c, r.d, r.e, r.f, r.g, r.h].flatMap fun w => bigEndian 4 w.toNat

end Digest
end Stencil
