import MerkleSignature.Bytes.BigEndian

/-!
# SHA-512

The construction of SHA-256 on 64-bit words: blocks of sixteen words, a schedule of 80 words in
five windows, and 80 rounds on eight working words. The digest is the big-endian encoding of the
final eight words.
-/

namespace MerkleSignature.Sha512

/-- The eight working words. -/
structure State where
  a : UInt64
  b : UInt64
  c : UInt64
  d : UInt64
  e : UInt64
  f : UInt64
  g : UInt64
  h : UInt64

/-- Sixteen consecutive words of the schedule, or sixteen round constants. -/
structure Window where
  w0 : UInt64
  w1 : UInt64
  w2 : UInt64
  w3 : UInt64
  w4 : UInt64
  w5 : UInt64
  w6 : UInt64
  w7 : UInt64
  w8 : UInt64
  w9 : UInt64
  w10 : UInt64
  w11 : UInt64
  w12 : UInt64
  w13 : UInt64
  w14 : UInt64
  w15 : UInt64

/-- The words before the first block: fractional parts of the square roots of the first primes. -/
def initial : State :=
  ⟨0x6a09e667f3bcc908, 0xbb67ae8584caa73b, 0x3c6ef372fe94f82b, 0xa54ff53a5f1d36f1,
    0x510e527fade682d1, 0x9b05688c2b3e6c1f, 0x1f83d9abfb41bd6b, 0x5be0cd19137e2179⟩

/-- One constant per round: fractional parts of the cube roots of the first 80 primes. -/
def roundConstants : List Window := [
  ⟨0x428a2f98d728ae22, 0x7137449123ef65cd, 0xb5c0fbcfec4d3b2f, 0xe9b5dba58189dbbc,
    0x3956c25bf348b538, 0x59f111f1b605d019, 0x923f82a4af194f9b, 0xab1c5ed5da6d8118,
    0xd807aa98a3030242, 0x12835b0145706fbe, 0x243185be4ee4b28c, 0x550c7dc3d5ffb4e2,
    0x72be5d74f27b896f, 0x80deb1fe3b1696b1, 0x9bdc06a725c71235, 0xc19bf174cf692694⟩,
  ⟨0xe49b69c19ef14ad2, 0xefbe4786384f25e3, 0x0fc19dc68b8cd5b5, 0x240ca1cc77ac9c65,
    0x2de92c6f592b0275, 0x4a7484aa6ea6e483, 0x5cb0a9dcbd41fbd4, 0x76f988da831153b5,
    0x983e5152ee66dfab, 0xa831c66d2db43210, 0xb00327c898fb213f, 0xbf597fc7beef0ee4,
    0xc6e00bf33da88fc2, 0xd5a79147930aa725, 0x06ca6351e003826f, 0x142929670a0e6e70⟩,
  ⟨0x27b70a8546d22ffc, 0x2e1b21385c26c926, 0x4d2c6dfc5ac42aed, 0x53380d139d95b3df,
    0x650a73548baf63de, 0x766a0abb3c77b2a8, 0x81c2c92e47edaee6, 0x92722c851482353b,
    0xa2bfe8a14cf10364, 0xa81a664bbc423001, 0xc24b8b70d0f89791, 0xc76c51a30654be30,
    0xd192e819d6ef5218, 0xd69906245565a910, 0xf40e35855771202a, 0x106aa07032bbd1b8⟩,
  ⟨0x19a4c116b8d2d0c8, 0x1e376c085141ab53, 0x2748774cdf8eeb99, 0x34b0bcb5e19b48a8,
    0x391c0cb3c5c95a63, 0x4ed8aa4ae3418acb, 0x5b9cca4f7763e373, 0x682e6ff3d6b2b8a3,
    0x748f82ee5defb2fc, 0x78a5636f43172f60, 0x84c87814a1f0ab72, 0x8cc702081a6439ec,
    0x90befffa23631e28, 0xa4506cebde82bde9, 0xbef9a3f7b2c67915, 0xc67178f2e372532b⟩,
  ⟨0xca273eceea26619c, 0xd186b8c721c0c207, 0xeada7dd6cde0eb1e, 0xf57d4f7fee6ed178,
    0x06f067aa72176fba, 0x0a637dc5a2c898a6, 0x113f9804bef90dae, 0x1b710b35131c471b,
    0x28db77f523047d84, 0x32caab7b40c72493, 0x3c9ebe0a15c9bebc, 0x431d67c49c100d4c,
    0x4cc5d4becb3e42b6, 0x597f299cfc657e2a, 0x5fcb6fab3ad6faec, 0x6c44198c4a475817⟩]

/-- Rotation to the right by `count` bits, for `0 < count < 64`. -/
@[inline] def rotateRight (x count : UInt64) : UInt64 := (x >>> count) ||| (x <<< (64 - count))

/-- The first `count` big-endian words of a byte string; an incomplete last word is dropped. -/
def words : (count : Nat) → Bytes → List UInt64
  | 0, _ => []
  | count + 1, bytes =>
    match bytes with
    | p :: q :: r :: s :: t :: u :: v :: x :: rest =>
      ((p.toUInt64 <<< 56) ||| (q.toUInt64 <<< 48) ||| (r.toUInt64 <<< 40) |||
        (s.toUInt64 <<< 32) ||| (t.toUInt64 <<< 24) ||| (u.toUInt64 <<< 16) |||
          (v.toUInt64 <<< 8) ||| x.toUInt64) :: words count rest
    | _ => []

/-- The first 128 bytes of a byte string as a window; zero if there are fewer. -/
def Window.ofBytes (bytes : Bytes) : Window :=
  match words 16 bytes with
  | [w0, w1, w2, w3, w4, w5, w6, w7, w8, w9, w10, w11, w12, w13, w14, w15] =>
    ⟨w0, w1, w2, w3, w4, w5, w6, w7, w8, w9, w10, w11, w12, w13, w14, w15⟩
  | _ => ⟨0, 0, 0, 0, 0, 0, 0, 0, 0, 0, 0, 0, 0, 0, 0, 0⟩

/-- A word of the schedule from the words 16, 15, 7 and 2 places before it. -/
@[inline] def extend (w16 w15 w7 w2 : UInt64) : UInt64 :=
  let sigma0 := rotateRight w15 1 ^^^ rotateRight w15 8 ^^^ (w15 >>> 7)
  let sigma1 := rotateRight w2 19 ^^^ rotateRight w2 61 ^^^ (w2 >>> 6)
  w16 + sigma0 + w7 + sigma1

/-- The next sixteen words of the schedule. -/
def Window.next (w : Window) : Window :=
  let v0 := extend w.w0 w.w1 w.w9 w.w14
  let v1 := extend w.w1 w.w2 w.w10 w.w15
  let v2 := extend w.w2 w.w3 w.w11 v0
  let v3 := extend w.w3 w.w4 w.w12 v1
  let v4 := extend w.w4 w.w5 w.w13 v2
  let v5 := extend w.w5 w.w6 w.w14 v3
  let v6 := extend w.w6 w.w7 w.w15 v4
  let v7 := extend w.w7 w.w8 v0 v5
  let v8 := extend w.w8 w.w9 v1 v6
  let v9 := extend w.w9 w.w10 v2 v7
  let v10 := extend w.w10 w.w11 v3 v8
  let v11 := extend w.w11 w.w12 v4 v9
  let v12 := extend w.w12 w.w13 v5 v10
  let v13 := extend w.w13 w.w14 v6 v11
  let v14 := extend w.w14 w.w15 v7 v12
  let v15 := extend w.w15 v0 v8 v13
  ⟨v0, v1, v2, v3, v4, v5, v6, v7, v8, v9, v10, v11, v12, v13, v14, v15⟩

/-- One round with a round constant and a schedule word. -/
@[inline] def round (s : State) (constant word : UInt64) : State :=
  let sum1 := rotateRight s.e 14 ^^^ rotateRight s.e 18 ^^^ rotateRight s.e 41
  let choice := (s.e &&& s.f) ^^^ (~~~s.e &&& s.g)
  let t1 := s.h + sum1 + choice + constant + word
  let sum0 := rotateRight s.a 28 ^^^ rotateRight s.a 34 ^^^ rotateRight s.a 39
  let majority := (s.a &&& s.b) ^^^ (s.a &&& s.c) ^^^ (s.b &&& s.c)
  ⟨t1 + sum0 + majority, s.a, s.b, s.c, s.d + t1, s.e, s.f, s.g⟩

/-- Sixteen rounds with a window of constants and a window of the schedule. -/
def mix (s : State) (k w : Window) : State :=
  let s := round s k.w0 w.w0
  let s := round s k.w1 w.w1
  let s := round s k.w2 w.w2
  let s := round s k.w3 w.w3
  let s := round s k.w4 w.w4
  let s := round s k.w5 w.w5
  let s := round s k.w6 w.w6
  let s := round s k.w7 w.w7
  let s := round s k.w8 w.w8
  let s := round s k.w9 w.w9
  let s := round s k.w10 w.w10
  let s := round s k.w11 w.w11
  let s := round s k.w12 w.w12
  let s := round s k.w13 w.w13
  let s := round s k.w14 w.w14
  let s := round s k.w15 w.w15
  s

/-- All rounds: one window of constants after the other, with the schedule windows from `w` on. -/
def mixAll : List Window → Window → State → State
  | [], _, s => s
  | k :: rest, w, s => mixAll rest w.next (mix s k w)

/-- Absorb the first 128 bytes of a byte string. -/
def compress (s : State) (bytes : Bytes) : State :=
  let t := mixAll roundConstants (Window.ofBytes bytes) s
  ⟨s.a + t.a, s.b + t.b, s.c + t.c, s.d + t.d, s.e + t.e, s.f + t.f, s.g + t.g, s.h + t.h⟩

/-- Absorb `count` blocks of 128 bytes. -/
def absorb : (count : Nat) → State → Bytes → State
  | 0, s, _ => s
  | count + 1, s, bytes => absorb count (compress s bytes) (bytes.drop 128)

/-- The end of a message of `length` bytes, padded: behind it a one bit, zero bits up to a multiple
of 128 bytes, and the length in bits. -/
def padded (length : Nat) (rest : Bytes) : Bytes :=
  rest ++ 0x80 :: (List.replicate ((239 - length % 128) % 128) 0 ++
    Bytes.toBigEndian 16 (8 * length))

/-- The eight big-endian bytes of a word. -/
@[inline] def wordBytes (w : UInt64) (tail : Bytes) : Bytes :=
  (w >>> 56).toUInt8 :: (w >>> 48).toUInt8 :: (w >>> 40).toUInt8 :: (w >>> 32).toUInt8 ::
    (w >>> 24).toUInt8 :: (w >>> 16).toUInt8 :: (w >>> 8).toUInt8 :: w.toUInt8 :: tail

/-- The eight words as 64 bytes. -/
def State.toBytes (s : State) : Bytes :=
  wordBytes s.a <| wordBytes s.b <| wordBytes s.c <| wordBytes s.d <|
    wordBytes s.e <| wordBytes s.f <| wordBytes s.g <| wordBytes s.h []

/-- The SHA-512 digest of a message. -/
def hash (message : Bytes) : Bytes :=
  let blocks := message.length / 128
  let last := padded message.length (message.drop (128 * blocks))
  (absorb (last.length / 128) (absorb blocks initial message) last).toBytes

/-- The digest is 64 bytes long. -/
@[simp] theorem length_hash (message : Bytes) : (hash message).length = 64 := rfl

end MerkleSignature.Sha512
