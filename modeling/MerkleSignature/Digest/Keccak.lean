import MerkleSignature.Bytes

/-!
# SHAKE128 and SHAKE256

The Keccak permutation acts on 25 lanes of 64 bits, kept as five planes of five lanes. A sponge of
a given rate absorbs the padded message block by block and is then read: the first 64 bytes of the
state are as many as any parameter set of this library needs, and every rate is longer than that.
-/

namespace MerkleSignature.Keccak

/-- Five lanes with one second coordinate. -/
structure Plane where
  x0 : UInt64
  x1 : UInt64
  x2 : UInt64
  x3 : UInt64
  x4 : UInt64

/-- The five planes of the state. -/
structure State where
  y0 : Plane
  y1 : Plane
  y2 : Plane
  y3 : Plane
  y4 : Plane

/-- Rotation to the left by `count` bits, for `0 < count < 64`. -/
@[inline] def rotateLeft (x count : UInt64) : UInt64 := (x <<< count) ||| (x >>> (64 - count))

/-- The lane-wise exclusive or of two planes. -/
@[inline] def Plane.xor (p q : Plane) : Plane :=
  ⟨p.x0 ^^^ q.x0, p.x1 ^^^ q.x1, p.x2 ^^^ q.x2, p.x3 ^^^ q.x3, p.x4 ^^^ q.x4⟩

/-- The zero plane. -/
def Plane.zero : Plane := ⟨0, 0, 0, 0, 0⟩

/-- The state before the first block. -/
def State.zero : State := ⟨.zero, .zero, .zero, .zero, .zero⟩

/-- Add to each column the parities of its two neighbour columns. -/
@[inline] def theta (s : State) : State :=
  let c := (((s.y0.xor s.y1).xor s.y2).xor s.y3).xor s.y4
  let d : Plane :=
    ⟨c.x4 ^^^ rotateLeft c.x1 1, c.x0 ^^^ rotateLeft c.x2 1, c.x1 ^^^ rotateLeft c.x3 1,
      c.x2 ^^^ rotateLeft c.x4 1, c.x3 ^^^ rotateLeft c.x0 1⟩
  ⟨s.y0.xor d, s.y1.xor d, s.y2.xor d, s.y3.xor d, s.y4.xor d⟩

/-- Rotate every lane by its own offset and move lane `(x, y)` to `(y, 2x + 3y)`. -/
@[inline] def rhoPi (s : State) : State where
  y0 := ⟨s.y0.x0, rotateLeft s.y1.x1 44, rotateLeft s.y2.x2 43, rotateLeft s.y3.x3 21,
    rotateLeft s.y4.x4 14⟩
  y1 := ⟨rotateLeft s.y0.x3 28, rotateLeft s.y1.x4 20, rotateLeft s.y2.x0 3, rotateLeft s.y3.x1 45,
    rotateLeft s.y4.x2 61⟩
  y2 := ⟨rotateLeft s.y0.x1 1, rotateLeft s.y1.x2 6, rotateLeft s.y2.x3 25, rotateLeft s.y3.x4 8,
    rotateLeft s.y4.x0 18⟩
  y3 := ⟨rotateLeft s.y0.x4 27, rotateLeft s.y1.x0 36, rotateLeft s.y2.x1 10, rotateLeft s.y3.x2 15,
    rotateLeft s.y4.x3 56⟩
  y4 := ⟨rotateLeft s.y0.x2 62, rotateLeft s.y1.x3 55, rotateLeft s.y2.x4 39, rotateLeft s.y3.x0 41,
    rotateLeft s.y4.x1 2⟩

/-- Combine each lane of a plane with the two lanes after it. -/
@[inline] def Plane.chi (p : Plane) : Plane :=
  ⟨p.x0 ^^^ (~~~p.x1 &&& p.x2), p.x1 ^^^ (~~~p.x2 &&& p.x3), p.x2 ^^^ (~~~p.x3 &&& p.x4),
    p.x3 ^^^ (~~~p.x4 &&& p.x0), p.x4 ^^^ (~~~p.x0 &&& p.x1)⟩

/-- One round, whose constant is added to the first lane. -/
def round (s : State) (constant : UInt64) : State :=
  let t := rhoPi (theta s)
  let y0 := t.y0.chi
  ⟨{ y0 with x0 := y0.x0 ^^^ constant }, t.y1.chi, t.y2.chi, t.y3.chi, t.y4.chi⟩

/-- One constant per round. -/
def roundConstants : List UInt64 := [
  0x0000000000000001, 0x0000000000008082, 0x800000000000808a, 0x8000000080008000,
  0x000000000000808b, 0x0000000080000001, 0x8000000080008081, 0x8000000000008009,
  0x000000000000008a, 0x0000000000000088, 0x0000000080008009, 0x000000008000000a,
  0x000000008000808b, 0x800000000000008b, 0x8000000000008089, 0x8000000000008003,
  0x8000000000008002, 0x8000000000000080, 0x000000000000800a, 0x800000008000000a,
  0x8000000080008081, 0x8000000000008080, 0x0000000080000001, 0x8000000080008008]

/-- The 24 rounds. -/
def permute (s : State) : State := roundConstants.foldl round s

/-- The end of a message, padded: behind it the bits `1111` and the padding `10…01` up to a
multiple of `rate` bytes. -/
def padded (rate : Nat) (rest : Bytes) : Bytes :=
  let gap := rate - rest.length % rate
  rest ++ (if gap = 1 then [0x9f] else 0x1f :: (List.replicate (gap - 2) 0 ++ [0x80]))

/-- The first `count` little-endian 64-bit lanes of a byte string; an incomplete last lane is
dropped. -/
def lanes : (count : Nat) → Bytes → List UInt64
  | 0, _ => []
  | count + 1, bytes =>
    match bytes with
    | p :: q :: r :: s :: t :: u :: v :: x :: rest =>
      (p.toUInt64 ||| (q.toUInt64 <<< 8) ||| (r.toUInt64 <<< 16) ||| (s.toUInt64 <<< 24) |||
        (t.toUInt64 <<< 32) ||| (u.toUInt64 <<< 40) ||| (v.toUInt64 <<< 48) |||
          (x.toUInt64 <<< 56)) :: lanes count rest
    | _ => []

/-- Five lanes from the front of a list, zero where the list has ended. -/
def Plane.ofLanes : List UInt64 → Plane × List UInt64
  | a :: b :: c :: d :: e :: rest => (⟨a, b, c, d, e⟩, rest)
  | short => (⟨short.getD 0 0, short.getD 1 0, short.getD 2 0, short.getD 3 0, 0⟩, [])

/-- Absorb the first `rate` bytes of a byte string: add their lanes to the state and permute. -/
def absorbBlock (rate : Nat) (s : State) (bytes : Bytes) : State :=
  let (p0, rest) := Plane.ofLanes (lanes (rate / 8) bytes)
  let (p1, rest) := Plane.ofLanes rest
  let (p2, rest) := Plane.ofLanes rest
  let (p3, rest) := Plane.ofLanes rest
  let (p4, _) := Plane.ofLanes rest
  permute ⟨s.y0.xor p0, s.y1.xor p1, s.y2.xor p2, s.y3.xor p3, s.y4.xor p4⟩

/-- Absorb `count` blocks of `rate` bytes. -/
def absorb (rate : Nat) : (count : Nat) → State → Bytes → State
  | 0, s, _ => s
  | count + 1, s, bytes => absorb rate count (absorbBlock rate s bytes) (bytes.drop rate)

/-- The eight little-endian bytes of a lane. -/
@[inline] def laneBytes (lane : UInt64) (tail : Bytes) : Bytes :=
  lane.toUInt8 :: (lane >>> 8).toUInt8 :: (lane >>> 16).toUInt8 :: (lane >>> 24).toUInt8 ::
    (lane >>> 32).toUInt8 :: (lane >>> 40).toUInt8 :: (lane >>> 48).toUInt8 ::
      (lane >>> 56).toUInt8 :: tail

/-- The first 64 bytes of the state. -/
def State.front (s : State) : Bytes :=
  laneBytes s.y0.x0 <| laneBytes s.y0.x1 <| laneBytes s.y0.x2 <| laneBytes s.y0.x3 <|
    laneBytes s.y0.x4 <| laneBytes s.y1.x0 <| laneBytes s.y1.x1 <| laneBytes s.y1.x2 []

/-- Absorb a whole message at a rate given in bytes, a multiple of eight. -/
def sponge (rate : Nat) (message : Bytes) : State :=
  let blocks := message.length / rate
  let last := padded rate (message.drop (rate * blocks))
  absorb rate (last.length / rate) (absorb rate blocks .zero message) last

/-- SHAKE128, read to 32 bytes. -/
def shake128 (message : Bytes) : Bytes := (sponge 168 message).front.take 32

/-- SHAKE256, read to 64 bytes. -/
def shake256 (message : Bytes) : Bytes := (sponge 136 message).front

/-- SHAKE128 is read to 32 bytes. -/
@[simp] theorem length_shake128 (message : Bytes) : (shake128 message).length = 32 := rfl

/-- SHAKE256 is read to 64 bytes. -/
@[simp] theorem length_shake256 (message : Bytes) : (shake256 message).length = 64 := rfl

end MerkleSignature.Keccak
