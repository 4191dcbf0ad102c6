import MerkleSignature.Bytes.BigEndian

/-!
# SHA-256

The message is padded to whole blocks of sixteen 32-bit words. Each block is expanded to a schedule
of 64 words, which drive 64 rounds on eight working words; the result is added to the words before
the block. The schedule is kept as windows of sixteen consecutive words, each computed from the one
before. The digest is the big-endian encoding of the final eight words.
-/

namespace MerkleSignature.Sha256

/-- The eight working words. -/
structure State where
  a : UInt32
  b : UInt32
  c : UInt32
  d : UInt32
  e : UInt32
  f : UInt32
  g : UInt32
  h : UInt32

/-- Sixteen consecutive words of the schedule, or sixteen round constants. -/
structure Window where
  w0 : UInt32
  w1 : UInt32
  w2 : UInt32
  w3 : UInt32
  w4 : UInt32
  w5 : UInt32
  w6 : UInt32
  w7 : UInt32
  w8 : UInt32
  w9 : UInt32
  w10 : UInt32
  w11 : UInt32
  w12 : UInt32
  w13 : UInt32
  w14 : UInt32
  w15 : UInt32

/-- The words before the first block: fractional parts of the square roots of the first primes. -/
def initial : State :=
  ⟨0x6a09e667, 0xbb67ae85, 0x3c6ef372, 0xa54ff53a, 0x510e527f, 0x9b05688c, 0x1f83d9ab, 0x5be0cd19⟩

/-- One constant per round: fractional parts of the cube roots of the first 64 primes. -/
def roundConstants : List Window := [
  ⟨0x428a2f98, 0x71374491, 0xb5c0fbcf, 0xe9b5dba5, 0x3956c25b, 0x59f111f1, 0x923f82a4, 0xab1c5ed5,
    0xd807aa98, 0x12835b01, 0x243185be, 0x550c7dc3, 0x72be5d74, 0x80deb1fe, 0x9bdc06a7, 0xc19bf174⟩,
  ⟨0xe49b69c1, 0xefbe4786, 0x0fc19dc6, 0x240ca1cc, 0x2de92c6f, 0x4a7484aa, 0x5cb0a9dc, 0x76f988da,
    0x983e5152, 0xa831c66d, 0xb00327c8, 0xbf597fc7, 0xc6e00bf3, 0xd5a79147, 0x06ca6351, 0x14292967⟩,
  ⟨0x27b70a85, 0x2e1b2138, 0x4d2c6dfc, 0x53380d13, 0x650a7354, 0x766a0abb, 0x81c2c92e, 0x92722c85,
    0xa2bfe8a1, 0xa81a664b, 0xc24b8b70, 0xc76c51a3, 0xd192e819, 0xd6990624, 0xf40e3585, 0x106aa070⟩,
  ⟨0x19a4c116, 0x1e376c08, 0x2748774c, 0x34b0bcb5, 0x391c0cb3, 0x4ed8aa4a, 0x5b9cca4f, 0x682e6ff3,
    0x748f82ee, 0x78a5636f, 0x84c87814, 0x8cc70208, 0x90befffa, 0xa4506ceb, 0xbef9a3f7, 0xc67178f2⟩]

/-- Rotation to the right by `count` bits, for `0 < count < 32`. -/
@[inline] def rotateRight (x count : UInt32) : UInt32 := (x >>> count) ||| (x <<< (32 - count))

/-- The first `count` big-endian words of a byte string; an incomplete last word is dropped. -/
def words : (count : Nat) → Bytes → List UInt32
  | 0, _ => []
  | count + 1, bytes =>
    match bytes with
    | p :: q :: r :: s :: rest =>
      ((p.toUInt32 <<< 24) ||| (q.toUInt32 <<< 16) ||| (r.toUInt32 <<< 8) ||| s.toUInt32) ::
        words count rest
    | _ => []

/-- The first 64 bytes of a byte string as a window; zero if there are fewer. -/
def Window.ofBytes (bytes : Bytes) : Window :=
  match words 16 bytes with
  | [w0, w1, w2, w3, w4, w5, w6, w7, w8, w9, w10, w11, w12, w13, w14, w15] =>
    ⟨w0, w1, w2, w3, w4, w5, w6, w7, w8, w9, w10, w11, w12, w13, w14, w15⟩
  | _ => ⟨0, 0, 0, 0, 0, 0, 0, 0, 0, 0, 0, 0, 0, 0, 0, 0⟩

/-- A word of the schedule from the words 16, 15, 7 and 2 places before it. -/
@[inline] def extend (w16 w15 w7 w2 : UInt32) : UInt32 :=
  let sigma0 := rotateRight w15 7 ^^^ rotateRight w15 18 ^^^ (w15 >>> 3)
  let sigma1 := rotateRight w2 17 ^^^ rotateRight w2 19 ^^^ (w2 >>> 10)
  w16 + sigma0 + w7 + sigma1

/-- The next sixteen words of the schedule. -/
def Window.next (w : Window) : Window :=
  let v0 := extend w.w0 w.w1 w.w9 w.w14
  let v1 := extend w.w1 w.w2 w.w10 w.w15
  let v2 := extend w.w2 w.w3 w.w11 v0
  let v3 := extend w.w3 w.w4 w.w12 v1
  let v4 := extend w.w4 w.w5 w.w13 v2
  let v5 := extend w.w5 w.w6 w.w14 v3
  let v6 := extend w.w6 w.w7 w.w15 v4
  let v7 := extend w.w7 w.w8 v0 v5
  let v8 := extend w.w8 w.w9 v1 v6
  let v9 := extend w.w9 w.w10 v2 v7
  let v10 := extend w.w10 w.w11 v3 v8
  let v11 := extend w.w11 w.w12 v4 v9
  let v12 := extend w.w12 w.w13 v5 v10
  let v13 := extend w.w13 w.w14 v6 v11
  let v14 := extend w.w14 w.w15 v7 v12
  let v15 := extend w.w15 v0 v8 v13
  ⟨v0, v1, v2, v3, v4, v5, v6, v7, v8, v9, v10, v11, v12, v13, v14, v15⟩

/-- One round with a round constant and a schedule word. -/
@[inline] def round (s : State) (constant word : UInt32) : State :=
  let sum1 := rotateRight s.e 6 ^^^ rotateRight s.e 11 ^^^ rotateRight s.e 25
  let choice := (s.e &&& s.f) ^^^ (~~~s.e &&& s.g)
  let t1 := s.h + sum1 + choice + constant + word
  let sum0 := rotateRight s.a 2 ^^^ rotateRight s.a 13 ^^^ rotateRight s.a 22
  let majority := (s.a &&& s.b) ^^^ (s.a &&& s.c) ^^^ (s.b &&& s.c)
  ⟨t1 + sum0 + majority, s.a, s.b, s.c, s.d + t1, s.e, s.f, s.g⟩

/-- Sixteen rounds with a window of constants and a window of the schedule. -/
def mix (s : State) (k w : Window) : State :=
  let s := round s k.w0 w.w0
  let s := round s k.w1 w.w1
  let s := round s k.w2 w.w2
  let s := round s k.w3 w.w3
  let s := round s k.w4 w.w4
  let s := round s k.w5 w.w5
  let s := round s k.w6 w.w6
  let s := round s k.w7 w.w7
  let s := round s k.w8 w.w8
  let s := round s k.w9 w.w9
  let s := round s k.w10 w.w10
  let s := round s k.w11 w.w11
  let s := round s k.w12 w.w12
  let s := round s k.w13 w.w13
  let s := round s k.w14 w.w14
  let s := round s k.w15 w.w15
  s

/-- All rounds: one window of constants after the other, with the schedule windows from `w` on. -/
def mixAll : List Window → Window → State → State
  | [], _, s => s
  | k :: rest, w, s => mixAll rest w.next (mix s k w)

/-- Absorb the first 64 bytes of a byte string. -/
def compress (s : State) (bytes : Bytes) : State :=
  let t := mixAll roundConstants (Window.ofBytes bytes) s
  ⟨s.a + t.a, s.b + t.b, s.c + t.c, s.d + t.d, s.e + t.e, s.f + t.f, s.g + t.g, s.h + t.h⟩

/-- Absorb `count` blocks of 64 bytes. -/
def absorb : (count : Nat) → State → Bytes → State
  | 0, s, _ => s
  | count + 1, s, bytes => absorb count (compress s bytes) (bytes.drop 64)

/-- The end of a message of `length` bytes, padded: behind it a one bit, zero bits up to a multiple
of 64 bytes, and the length in bits. -/
def padded (length : Nat) (rest : Bytes) : Bytes :=
  rest ++ 0x80 :: (List.replicate ((119 - length % 64) % 64) 0 ++
    Bytes.toBigEndian 8 (8 * length))

/-- The four big-endian bytes of a word. -/
@[inline] def wordBytes (w : UInt32) (tail : Bytes) : Bytes :=
  (w >>> 24).toUInt8 :: (w >>> 16).toUInt8 :: (w >>> 8).toUInt8 :: w.toUInt8 :: tail

/-- The eight words as 32 bytes. -/
def State.toBytes (s : State) : Bytes :=
  wordBytes s.a <| wordBytes s.b <| wordBytes s.c <| wordBytes s.d <|
    wordBytes s.e <| wordBytes s.f <| wordBytes s.g <| wordBytes s.h []

/-- The SHA-256 digest of a message. -/
def hash (message : Bytes) : Bytes :=
  let blocks := message.length / 64
  let last := padded message.length (message.drop (64 * blocks))
  (absorb (last.length / 64) (absorb blocks initial message) last).toBytes

/-- The digest is 32 bytes long. -/
@[simp] theorem length_hash (message : Bytes) : (hash message).length = 32 := rfl

end MerkleSignature.Sha256
